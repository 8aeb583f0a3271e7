import Jaci.LuaJson.Decode

/-!
# The stack of `json.decode`

The decoder leaves the table of every container it is in on the Lua stack, and every key whose value
it reads.  Here it is run for its calls that push and pop: they do not decide where it goes.  A push
reserves its slot first, if need be.

* `value_run`, `decode_run` : the calls of `parse_value` and `json_decode`, in order, and
  `value_run_rest`;
* `push`, `exec` : what they do to the stack;
* `exec_reserved` : what is pushed has a slot;
* `exec_within`, `exec_beyond` : when the slots that a C function is given are enough.
-/

namespace Jaci

namespace LuaJson

open Wire Json

/-! ### The calls -/

/-- A call of the decoder. -/
inductive StackOp where
  /-- `lua_pushnil`, `lua_pushboolean`, `lua_pushnumber`, `lua_pushinteger64`, `lua_pushlstring` or
  `lua_newtable`. -/
  | push
  /-- `lua_rawseti`, `lua_rawset` or `lua_pop`, which take values from the stack. -/
  | pop (n : ℕ)
deriving DecidableEq

/-- The calls of a part of the decoder, and what is left of the input if it succeeds. -/
structure StackRun where
  ops : List StackOp
  /-- The rest of the input, or nothing after an error. -/
  rest : Option Bytes

/-- The part comes after these calls. -/
def StackRun.after (ops : List StackOp) (r : StackRun) : StackRun := ⟨ops ++ r.ops, r.rest⟩

@[simp] theorem StackRun.after_ops (ops : List StackOp) (r : StackRun) :
    (r.after ops).ops = ops ++ r.ops := rfl

@[simp] theorem StackRun.after_rest (ops : List StackOp) (r : StackRun) :
    (r.after ops).rest = r.rest := rfl

/-- A token is pushed when it has been read. -/
def token_run {α : Type} : Read α → StackRun
  | .ok (_, rest) => ⟨[.push], some rest⟩
  | .error _ => ⟨[], none⟩

/-- The loop of `parse_array`, whose table is on the stack. -/
def array_run (value : Bytes → StackRun) : ℕ → Bytes → StackRun
  | 0, _ => ⟨[], none⟩
  | turns + 1, s =>
    if s = [] then ⟨[], none⟩
    else
      match (value s).rest with
      | none => ⟨(value s).ops, none⟩
      | some s' =>
        let ops := (value s).ops ++ [.pop 1]
        match skip_whitespace s' with
        | [] => ⟨ops, none⟩
        | c :: rest =>
          if c = rbracket then ⟨ops, some rest⟩
          else if c = comma then (array_run value turns rest).after ops
          else ⟨ops, none⟩

/-- A turn of the loop of `parse_object`, after its key, and `next`, the turns after it. -/
def member_run (value next : Bytes → StackRun) (s : Bytes) : StackRun :=
  match skip_whitespace s with
  | [] => ⟨[.push], none⟩
  | c :: rest =>
    if c ≠ colon then ⟨[.push], none⟩
    else
      match (value rest).rest with
      | none => ⟨.push :: (value rest).ops, none⟩
      | some s' =>
        let ops := .push :: (value rest).ops ++ [.pop 2]
        match skip_whitespace s' with
        | [] => ⟨ops, none⟩
        | c :: rest =>
          if c = rbrace then ⟨ops, some rest⟩
          else if c = comma then (next rest).after ops
          else ⟨ops, none⟩

/-- The loop of `parse_object`, whose table is on the stack. -/
def object_run (value : Bytes → StackRun) : ℕ → Bytes → StackRun
  | 0, _ => ⟨[], none⟩
  | turns + 1, s =>
    if s = [] then ⟨[], none⟩
    else
      match skip_whitespace s with
      | [] => ⟨[], none⟩
      | c :: rest =>
        if c ≠ quote then ⟨[], none⟩
        else
          match parse_string rest with
          | .error _ => ⟨[], none⟩
          | .ok (_, s) => member_run value (object_run value turns) s

/-- The calls of `parse_value`. -/
def value_run : ℕ → Bytes → StackRun
  | 0, _ => ⟨[], none⟩
  | fuel + 1, s =>
    match skip_whitespace s with
    | [] => ⟨[], none⟩
    | c :: rest =>
      if c = 0x6e then token_run (parse_word nullText .nil "invalid null literal" (c :: rest))
      else if c = 0x74 then
        token_run (parse_word trueText (.boolean true) "invalid true literal" (c :: rest))
      else if c = 0x66 then
        token_run (parse_word falseText (.boolean false) "invalid false literal" (c :: rest))
      else if c = quote then token_run (parse_string rest)
      else if c = lbracket then
        match skip_whitespace rest with
        | [] => ⟨[.push], none⟩
        | d :: rest =>
          if d = rbracket then ⟨[.push], some rest⟩
          else (array_run (value_run fuel) (rest.length + 1) (d :: rest)).after [.push]
      else if c = lbrace then
        match skip_whitespace rest with
        | [] => ⟨[.push], none⟩
        | d :: rest =>
          if d = rbrace then ⟨[.push], some rest⟩
          else (object_run (value_run fuel) (rest.length + 1) (d :: rest)).after [.push]
      else if c = minus ∨ isDigit c then token_run (parse_number (c :: rest))
      else ⟨[], none⟩

/-- The calls of `json_decode`; nil and a message are pushed for an error. -/
def decode_run (s : Bytes) : List StackOp :=
  let r := value_run (s.length + 1) s
  match r.rest with
  | none => r.ops ++ [.push, .push]
  | some rest => if skip_whitespace rest = [] then r.ops else r.ops ++ [.pop 1, .push, .push]

/-! ### What is left of the input -/

/-- What is left of the input, after success. -/
def Read.rest {α : Type} : Read α → Option Bytes
  | .ok (_, t) => some t
  | .error _ => none

theorem token_run_rest {α : Type} (r : Read α) : (token_run r).rest = r.rest := by
  cases r with
  | ok p => rfl
  | error e => rfl

section Rest

variable {parse : Bytes → Read LuaValue} {value : Bytes → StackRun}

theorem array_run_rest (h : ∀ s, (value s).rest = (parse s).rest) (turns : ℕ) (tbl : LuaValue)
    (i : ℕ) (s : Bytes) :
    (array_run value turns s).rest = (parse_array parse turns tbl i s).rest := by
  induction turns generalizing tbl i s with
  | zero => rfl
  | succ turns ih =>
    rw [array_run, parse_array]
    split_ifs with hs
    · rfl
    · rw [h]
      cases parse s with
      | error e => rfl
      | ok p =>
        simp only [Read.rest]
        cases skip_whitespace p.2 with
        | nil => rfl
        | cons c rest =>
          simp only
          split_ifs with hclose hcomma
          · rfl
          · exact ih _ _ rest
          · rfl

theorem object_run_rest (h : ∀ s, (value s).rest = (parse s).rest) (turns : ℕ) (tbl : LuaValue)
    (s : Bytes) : (object_run value turns s).rest = (parse_object parse turns tbl s).rest := by
  induction turns generalizing tbl s with
  | zero => rfl
  | succ turns ih =>
    rw [object_run, parse_object]
    split_ifs with hs
    · rfl
    cases skip_whitespace s with
    | nil => rfl
    | cons c rest =>
      simp only
      split_ifs with hquote
      · rfl
      cases parse_string rest with
      | error e => rfl
      | ok p =>
        simp only [member_run]
        cases skip_whitespace p.2 with
        | nil => rfl
        | cons c rest =>
          simp only
          split_ifs with hcolon
          · rfl
          rw [h]
          cases parse rest with
          | error e => rfl
          | ok q =>
            simp only [Read.rest]
            cases skip_whitespace q.2 with
            | nil => rfl
            | cons c rest =>
              simp only
              split_ifs with hclose hcomma
              · rfl
              · exact ih _ rest
              · rfl

end Rest

/-- **The calls are those of the parser.** -/
theorem value_run_rest (fuel : ℕ) (s : Bytes) :
    (value_run fuel s).rest = (parse_value fuel s).rest := by
  induction fuel generalizing s with
  | zero => rfl
  | succ fuel ih =>
    rw [value_run, parse_value]
    cases skip_whitespace s with
    | nil => rfl
    | cons c rest =>
      simp only
      split_ifs with hn ht hf hquote hbracket hbrace hnumber
      · exact token_run_rest _
      · exact token_run_rest _
      · exact token_run_rest _
      · cases parse_string rest with
        | ok p => rfl
        | error e => rfl
      · cases skip_whitespace rest with
        | nil => rfl
        | cons d rest =>
          simp only
          split_ifs with hclose
          · rfl
          · exact array_run_rest ih _ _ _ _
      · cases skip_whitespace rest with
        | nil => rfl
        | cons d rest =>
          simp only
          split_ifs with hclose
          · rfl
          · exact object_run_rest ih _ _ _
      · exact token_run_rest _
      · rfl

/-! ### The stack -/

def LUA_MINSTACK : ℕ := 20

def LUAI_MAXCSTACK : ℕ := 8000

/-- The frame of the C function, without its arguments. -/
structure Frame where
  /-- The number of values that it has pushed and not popped: up to `L->top`. -/
  top : ℕ
  /-- The number of slots that it has: up to `L->ci->top`. -/
  reserved : ℕ
  requests : ℕ

def Frame.start : Frame := ⟨0, LUA_MINSTACK, 0⟩

section Exec

variable (nargs : ℕ) (memory : ℕ → Bool)

/-- `lua_checkstack` of one slot; `memory` says which requests the allocator grants, and nothing is
returned for 0. -/
def lua_checkstack (f : Frame) : Option Frame :=
  if LUAI_MAXCSTACK < nargs + f.top + 1 then none
  else if memory f.requests then
    some { f with reserved := max f.reserved (f.top + 1), requests := f.requests + 1 }
  else none

/-- `ensure_stack` of one slot; an error is raised where it gives nothing. -/
def ensure_stack (f : Frame) : Option Frame :=
  if f.reserved < f.top + 1 then lua_checkstack nargs memory f else some f

def StackOp.exec (f : Frame) : StackOp → Option Frame
  | .push => (ensure_stack nargs memory f).map fun f => { f with top := f.top + 1 }
  | .pop n => some { f with top := f.top - n }

/-- The frames after the calls, up to one that raises an error. -/
def exec (f : Frame) : List StackOp → List Frame
  | [] => []
  | op :: ops =>
    match op.exec nargs memory f with
    | some f' => f' :: exec f' ops
    | none => []

def completes (f : Frame) (ops : List StackOp) : Prop :=
  (exec nargs memory f ops).length = ops.length

end Exec

section Frames

variable {nargs : ℕ} {memory : ℕ → Bool} {f f' : Frame}

/-- A call keeps what has been pushed within what has been reserved. -/
theorem StackOp.exec_reserved {op : StackOp} (h : op.exec nargs memory f = some f')
    (hf : f.top ≤ f.reserved) : f'.top ≤ f'.reserved := by
  cases op with
  | push =>
    obtain ⟨g, hg, rfl⟩ := Option.map_eq_some_iff.mp h
    unfold ensure_stack at hg
    split_ifs at hg with hfull
    · unfold lua_checkstack at hg
      split_ifs at hg
      obtain rfl := Option.some.inj hg
      exact le_max_right _ _
    · obtain rfl := Option.some.inj hg
      exact Nat.le_of_not_lt hfull
  | pop n =>
    obtain rfl := Option.some.inj h
    exact (Nat.sub_le _ _).trans hf

/-- **What is pushed has a slot**, after every call. -/
theorem exec_reserved (ops : List StackOp) (hf : f.top ≤ f.reserved) :
    ∀ g ∈ exec nargs memory f ops, g.top ≤ g.reserved := by
  induction ops generalizing f with
  | nil => simp [exec]
  | cons op ops ih =>
    rw [exec]
    split
    · next f' hop =>
      have hf' := StackOp.exec_reserved hop hf
      exact List.forall_mem_cons.mpr ⟨hf', ih hf'⟩
    · simp

end Frames

/-! ### Heights -/

/-- The number of values after a call, if there is room. -/
def StackOp.apply (top : ℕ) : StackOp → ℕ
  | .push => top + 1
  | .pop n => top - n

/-- The numbers of values after the calls, if there is room. -/
def heights (top : ℕ) : List StackOp → List ℕ
  | [] => []
  | op :: ops => op.apply top :: heights (op.apply top) ops

/-- The number of values after all calls, if there is room. -/
def final (top : ℕ) (ops : List StackOp) : ℕ := ops.foldl StackOp.apply top

@[simp] theorem final_nil (top : ℕ) : final top [] = top := rfl

@[simp] theorem final_cons (top : ℕ) (op : StackOp) (ops : List StackOp) :
    final top (op :: ops) = final (op.apply top) ops := rfl

@[simp] theorem final_append (top : ℕ) (ops ops' : List StackOp) :
    final top (ops ++ ops') = final (final top ops) ops' :=
  List.foldl_append

@[simp] theorem heights_append (top : ℕ) (ops ops' : List StackOp) :
    heights top (ops ++ ops') = heights top ops ++ heights (final top ops) ops' := by
  induction ops generalizing top with
  | nil => rfl
  | cons op ops ih => simp [heights, ih]

section Frames

variable {nargs : ℕ} {memory : ℕ → Bool} {f : Frame}

/-- A call that needs no more slots. -/
theorem StackOp.exec_within {op : StackOp} (h : op.apply f.top ≤ f.reserved) :
    op.exec nargs memory f = some { f with top := op.apply f.top } := by
  cases op with
  | push =>
    have hroom : ¬ f.reserved < f.top + 1 := Nat.not_lt.mpr h
    rw [StackOp.exec, ensure_stack, if_neg hroom]
    rfl
  | pop n => rfl

/-- Where the slots are enough, no more are asked for. -/
theorem exec_within {ops : List StackOp} (h : ∀ k ∈ heights f.top ops, k ≤ f.reserved) :
    exec nargs memory f ops = (heights f.top ops).map fun k => { f with top := k } := by
  induction ops generalizing f with
  | nil => rfl
  | cons op ops ih =>
    obtain ⟨hop, hrest⟩ := List.forall_mem_cons.mp h
    rw [exec, StackOp.exec_within hop]
    simp only [heights, List.map_cons]
    rw [ih hrest]

/-- Otherwise more values are on the stack, or an error has been raised. -/
theorem exec_beyond {ops : List StackOp} {n : ℕ} (h : ∃ k ∈ heights f.top ops, n < k) :
    completes nargs memory f ops → ∃ g ∈ exec nargs memory f ops, n < g.top := by
  intro hcompletes
  induction ops generalizing f with
  | nil => simp [heights] at h
  | cons op ops ih =>
    unfold completes at hcompletes
    rw [exec] at hcompletes ⊢
    split at hcompletes
    · next f' hop =>
      -- An operation that is carried out changes the height by its own amount.
      have htop : f'.top = op.apply f.top := by
        cases op with
        | push =>
          obtain ⟨g, hg, rfl⟩ := Option.map_eq_some_iff.mp hop
          unfold ensure_stack lua_checkstack at hg
          split_ifs at hg
          · obtain rfl := Option.some.inj hg
            rfl
          · obtain rfl := Option.some.inj hg
            rfl
        | pop n =>
          obtain rfl := Option.some.inj hop
          rfl
      obtain ⟨k, hk, hlt⟩ := h
      rcases List.mem_cons.mp hk with rfl | hk
      · exact ⟨f', List.mem_cons_self, by rwa [htop]⟩
      · obtain ⟨g, hg, hgt⟩ := ih ⟨k, by rwa [htop], hlt⟩ (Nat.succ.inj hcompletes)
        exact ⟨g, List.mem_cons_of_mem _ hg, hgt⟩
    · simp at hcompletes

end Frames

end LuaJson

end Jaci
