import Jaci.Lib.Wire
import Mathlib.Data.List.DropRight

/-!
# Types of the foreign function interface

A type is looked up by its name, without the blanks around it.  A name that ends in a star is a
pointer, the other names are those of a table that `typedef` extends.  Sizes are those of a 64-bit
system.

* `FFI_TypeKind`, `FFI_TypeInfo`, `initFFITypes` : the kinds of types and the table at the start;
* `resolveTypeKind` : the kind, size and alignment of a name.
-/

namespace Jaci

namespace Ffi

open Wire

/-- The bytes of a literal. -/
def str (s : String) : Bytes := s.toUTF8.data.toList

inductive FFI_TypeKind where
  /-- `FFI_VOID`. -/
  | VOID
  /-- `FFI_BOOL`. -/
  | BOOL
  /-- `FFI_I8`. -/
  | I8
  /-- `FFI_U8`. -/
  | U8
  /-- `FFI_I16`. -/
  | I16
  /-- `FFI_U16`. -/
  | U16
  /-- `FFI_I32`. -/
  | I32
  /-- `FFI_U32`. -/
  | U32
  /-- `FFI_I64`. -/
  | I64
  /-- `FFI_U64`. -/
  | U64
  /-- `FFI_F32`. -/
  | F32
  /-- `FFI_F64`. -/
  | F64
  /-- `FFI_PTR`. -/
  | PTR
  /-- `FFI_STR`. -/
  | STR
  /-- `FFI_BUF`. -/
  | BUF
deriving DecidableEq

/-- `FFI_TypeInfo`; its `structName` is always empty. -/
structure FFI_TypeInfo where
  kind : FFI_TypeKind
  size : ℕ
  align : ℕ
deriving DecidableEq

/-- `typeAliases`; the newest entry of a name comes first. -/
abbrev TypeAliases := List (Bytes × FFI_TypeInfo)

def initFFITypes : TypeAliases :=
  [(str "void", ⟨.VOID, 0, 1⟩), (str "bool", ⟨.BOOL, 1, 1⟩), (str "_Bool", ⟨.BOOL, 1, 1⟩),
    (str "char", ⟨.I8, 1, 1⟩), (str "signed char", ⟨.I8, 1, 1⟩),
    (str "unsigned char", ⟨.U8, 1, 1⟩), (str "int8_t", ⟨.I8, 1, 1⟩),
    (str "uint8_t", ⟨.U8, 1, 1⟩), (str "i8", ⟨.I8, 1, 1⟩), (str "u8", ⟨.U8, 1, 1⟩),
    (str "byte", ⟨.U8, 1, 1⟩),
    (str "short", ⟨.I16, 2, 2⟩), (str "short int", ⟨.I16, 2, 2⟩),
    (str "signed short", ⟨.I16, 2, 2⟩), (str "unsigned short", ⟨.U16, 2, 2⟩),
    (str "int16_t", ⟨.I16, 2, 2⟩), (str "uint16_t", ⟨.U16, 2, 2⟩), (str "i16", ⟨.I16, 2, 2⟩),
    (str "u16", ⟨.U16, 2, 2⟩),
    (str "int", ⟨.I32, 4, 4⟩), (str "signed int", ⟨.I32, 4, 4⟩),
    (str "unsigned int", ⟨.U32, 4, 4⟩), (str "unsigned", ⟨.U32, 4, 4⟩),
    (str "int32_t", ⟨.I32, 4, 4⟩), (str "uint32_t", ⟨.U32, 4, 4⟩), (str "i32", ⟨.I32, 4, 4⟩),
    (str "u32", ⟨.U32, 4, 4⟩),
    (str "long", ⟨.I64, 8, 8⟩), (str "unsigned long", ⟨.U64, 8, 8⟩),
    (str "long long", ⟨.I64, 8, 8⟩), (str "signed long long", ⟨.I64, 8, 8⟩),
    (str "unsigned long long", ⟨.U64, 8, 8⟩), (str "int64_t", ⟨.I64, 8, 8⟩),
    (str "uint64_t", ⟨.U64, 8, 8⟩), (str "i64", ⟨.I64, 8, 8⟩), (str "u64", ⟨.U64, 8, 8⟩),
    (str "float", ⟨.F32, 4, 4⟩), (str "f32", ⟨.F32, 4, 4⟩), (str "double", ⟨.F64, 8, 8⟩),
    (str "f64", ⟨.F64, 8, 8⟩),
    (str "size_t", ⟨.U64, 8, 8⟩), (str "ssize_t", ⟨.I64, 8, 8⟩), (str "intptr_t", ⟨.I64, 8, 8⟩),
    (str "uintptr_t", ⟨.U64, 8, 8⟩), (str "ptrdiff_t", ⟨.I64, 8, 8⟩),
    (str "ptr", ⟨.PTR, 8, 8⟩), (str "void*", ⟨.PTR, 8, 8⟩), (str "void *", ⟨.PTR, 8, 8⟩),
    (str "str", ⟨.STR, 8, 8⟩), (str "const char*", ⟨.STR, 8, 8⟩),
    (str "const char *", ⟨.STR, 8, 8⟩), (str "char*", ⟨.STR, 8, 8⟩),
    (str "char *", ⟨.STR, 8, 8⟩), (str "buf", ⟨.BUF, 8, 8⟩)]

def isspace (c : UInt8) : Bool := c == 0x20 || (0x09 ≤ c && c ≤ 0x0d)

/-- A string without the blanks at its two ends. -/
def trim (s : Bytes) : Bytes := (s.dropWhile isspace).rdropWhile isspace

/-- `*`. -/
abbrev star : UInt8 := 0x2a

/-- `resolveTypeKind`, or nothing for a name it does not know.  `undef` is what `back` reads from an
empty name, which C++ leaves open. -/
def resolveTypeKind (aliases : TypeAliases) (undef : UInt8) (name : Bytes) : Option FFI_TypeInfo :=
  let cleanName := trim name
  if cleanName.getLastD undef = star then
    if cleanName ∈ [str "const char*", str "char*", str "const char *", str "char *"] then
      some ⟨.STR, 8, 8⟩
    else some ⟨.PTR, 8, 8⟩
  else aliases.lookup cleanName

end Ffi

end Jaci
