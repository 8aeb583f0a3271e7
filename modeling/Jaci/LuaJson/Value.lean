import Jaci.Lib.Double
import Jaci.Lib.Wire

/-!
# Lua values of the JSON library

Tables are trees here: `visited`, which finds cycles, never finds one.  A table has its elements
1, 2, … and its other entries, in the order of `lua_next`.  The stacks are as large as they need to
be.

* `LuaValue` : a value;
* `LuaValue.rawseti`, `LuaValue.rawset` : the operations the decoder builds tables with;
* `LuaValue.induct` : induction over values.
-/

namespace Jaci

namespace LuaJson

open Wire

/-- The field `__jsontype` of a metatable. -/
inductive JsonType where
  /-- The string `array`. -/
  | array
  /-- The string `object`. -/
  | object
deriving DecidableEq

/-- A key that is not one of the elements 1, 2, …. -/
inductive Key where
  | number (n : Double)
  | integer (n : Int64)
  | string (s : Bytes)
  | other (id : ℕ)
deriving DecidableEq

/-- A Lua value. -/
inductive LuaValue where
  /-- `LUA_TNIL`. -/
  | nil
  /-- `LUA_TBOOLEAN`. -/
  | boolean (b : Bool)
  /-- `LUA_TNUMBER`. -/
  | number (n : Double)
  /-- `LUA_TINTEGER`. -/
  | integer (n : Int64)
  /-- `LUA_TSTRING`. -/
  | string (s : Bytes)
  /-- `LUA_TBUFFER`. -/
  | buffer (s : Bytes)
  /-- `LUA_TLIGHTUSERDATA`: the null marker or something else. -/
  | lightuserdata (null : Bool)
  /-- `LUA_TTABLE`. -/
  | table (tag : Option JsonType) (items : List LuaValue) (fields : List (Key × LuaValue))
  | other (typename : String)
deriving Inhabited

namespace LuaValue

/-- Induction over values: a table's case gets the hypothesis of each of its entries. -/
theorem induct {P : LuaValue → Prop} (nil : P .nil) (boolean : ∀ b, P (.boolean b))
    (number : ∀ n, P (.number n)) (integer : ∀ n, P (.integer n)) (string : ∀ s, P (.string s))
    (buffer : ∀ s, P (.buffer s)) (lightuserdata : ∀ b, P (.lightuserdata b))
    (table : ∀ tag items fields, (∀ v ∈ items, P v) → (∀ f ∈ fields, P f.2) →
      P (.table tag items fields)) (other : ∀ t, P (.other t)) (v : LuaValue) : P v :=
  LuaValue.rec (motive_1 := P) (motive_2 := fun items => ∀ v ∈ items, P v)
    (motive_3 := fun fields => ∀ f ∈ fields, P f.2) (motive_4 := fun f => P f.2)
    nil boolean number integer string buffer lightuserdata table other
    (by simp) (fun x xs hx hxs v hv => by
      rcases List.mem_cons.1 hv with rfl | hv
      · exact hx
      · exact hxs v hv)
    (by simp) (fun f fs hf hfs g hg => by
      rcases List.mem_cons.1 hg with rfl | hg
      · exact hf
      · exact hfs g hg)
    (fun _ _ h => h) v

/-- `lua_newtable`. -/
def newtable : LuaValue := .table none [] []

/-- `lua_rawseti` with an index that the table does not have yet. -/
def rawseti (t : LuaValue) (i : ℕ) (v : LuaValue) : LuaValue :=
  match t, v with
  | t, .nil => t
  | .table tag items fields, v =>
    if i = items.length + 1 then .table tag (items ++ [v]) fields
    else .table tag items (fields ++ [(.number (.round false i), v)])
  | t, _ => t

/-- `lua_rawset` with a string as key. -/
def rawset (t : LuaValue) (k : Bytes) (v : LuaValue) : LuaValue :=
  match t, v with
  | .table tag items fields, .nil => .table tag items (fields.filter fun f => f.1 ≠ .string k)
  | .table tag items fields, v =>
    if fields.any fun f => f.1 = .string k then
      .table tag items (fields.map fun f => if f.1 = .string k then (f.1, v) else f)
    else .table tag items (fields ++ [(.string k, v)])
  | t, _ => t

end LuaValue

end LuaJson

end Jaci
