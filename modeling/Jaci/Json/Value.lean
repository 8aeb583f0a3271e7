import Jaci.Lib.Wire

/-!
# JSON values of the language server

`Json::Value` is a tagged record; `Value` keeps, for every tag, the fields that the tag makes
meaningful.  A number is either integer-tagged (`isInteger`, with its 64-bit `intValue`) or a
double, which the model carries as its 64-bit pattern.  Objects are lists of pairs: the order of
the keys is kept, and keys may repeat.

* `Value.Sized` : every string and container is shorter than `2 ^ 32`.
* `Value.IntegerOnly` : every number is integer-tagged.
* `Value.induct` : induction over values with the hypotheses for the members of containers.
-/

namespace Jaci

namespace Json

open Wire

/-- A JSON value. -/
inductive Value where
  | null
  | boolean (boolValue : Bool)
  /-- `Type::Number` with `isInteger` set. -/
  | integer (intValue : Int64)
  /-- `Type::Number` with `isInteger` clear; `numberValue` by its bit pattern. -/
  | double (numberValue : UInt64)
  /-- `Type::String`: arbitrary bytes. -/
  | string (stringValue : Bytes)
  | array (arrayValue : List Value)
  /-- `Type::Object`: keys and values in order. -/
  | object (objectValue : List (Bytes × Value))
  deriving Inhabited

namespace Value

/-- Induction over values: a container's case gets the hypothesis of each of its members. -/
theorem induct {P : Value → Prop} (null : P .null) (boolean : ∀ b, P (.boolean b))
    (integer : ∀ n, P (.integer n)) (double : ∀ d, P (.double d)) (string : ∀ s, P (.string s))
    (array : ∀ xs, (∀ v ∈ xs, P v) → P (.array xs))
    (object : ∀ kvs, (∀ kv ∈ kvs, P kv.2) → P (.object kvs)) (v : Value) : P v :=
  Value.rec (motive_1 := P) (motive_2 := fun xs => ∀ v ∈ xs, P v)
    (motive_3 := fun kvs => ∀ kv ∈ kvs, P kv.2) (motive_4 := fun kv => P kv.2)
    null boolean integer double string array object
    (by simp) (fun x xs hx hxs v hv => by
      rcases List.mem_cons.1 hv with rfl | hv
      · exact hx
      · exact hxs v hv)
    (by simp) (fun kv kvs hkv hkvs p hp => by
      rcases List.mem_cons.1 hp with rfl | hp
      · exact hkv
      · exact hkvs p hp)
    (fun _ _ h => h) v

/-- A property of all values inside a value, itself included. -/
inductive All (P : Value → Prop) : Value → Prop where
  | null : P .null → All P .null
  | boolean {b} : P (.boolean b) → All P (.boolean b)
  | integer {n} : P (.integer n) → All P (.integer n)
  | double {d} : P (.double d) → All P (.double d)
  | string {s} : P (.string s) → All P (.string s)
  | array {xs} : P (.array xs) → (∀ v ∈ xs, All P v) → All P (.array xs)
  | object {kvs} : P (.object kvs) → (∀ kv ∈ kvs, All P kv.2) → All P (.object kvs)

/-- The strings and the container of one node are shorter than `2 ^ 32`. -/
def sized : Value → Prop
  | .string s => s.length < 2 ^ 32
  | .array xs => xs.length < 2 ^ 32
  | .object kvs => kvs.length < 2 ^ 32 ∧ ∀ kv ∈ kvs, kv.1.length < 2 ^ 32
  | _ => True

/-- One node is not a double. -/
def notDouble : Value → Prop
  | .double _ => False
  | _ => True

/-- Every string (keys included) and every container in the value is shorter than `2 ^ 32`. -/
def Sized (v : Value) : Prop := All sized v

/-- Every number in the value is integer-tagged. -/
def IntegerOnly (v : Value) : Prop := All notDouble v

end Value

end Json

end Jaci
