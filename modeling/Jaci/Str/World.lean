import Jaci.Str.Interning

/-!
# Runs of the string operations

A `World` is a state of the string table together with what the program holds: the buffers that
are being filled, and the strings that it obtained from the operations.  `World.step` runs one
operation, or one step of the collector; `World.interning` says what holds in every world that a
run can reach.

Buffers in progress are on the stack of their thread, so the collector has marked them when it
flips the current white.
-/

namespace Jaci

namespace Str

open Wire Linked

/-- The state of a run. -/
structure World where
  g : GlobalState
  /-- The strings that have been interned and not been freed. -/
  interned : Finset Addr
  buffers : List Addr
  /-- The strings returned by `luaS_newlstr` and `luaS_buffinish` that have not been freed. -/
  obtained : Finset Addr

/-- One operation of a run. -/
inductive Op where
  /-- `luaS_newlstr`. -/
  | newlstr (block : Option Addr) (arrayOk : Bool) (str : Bytes)
  /-- `luaS_bufstart`. -/
  | bufstart (block : Option Addr) (data : Bytes)
  | bufwrite (ts : Addr) (data : Bytes)
  /-- `luaS_buffinish`. -/
  | buffinish (arrayOk : Bool) (ts : Addr)
  | bufdrop (ts : Addr)
  /-- `luaS_resize`. -/
  | resize (arrayOk : Bool) (newsize : ℕ)
  /-- `luaS_fix`. -/
  | fix (ts : Addr)
  | mark (ts : Addr)
  /-- The collector flips the current white, having marked also these strings. -/
  | flip (marks : List Addr)
  | sweep (ts : Addr)

namespace World

def init : World := ⟨.init, ∅, [], ∅⟩

/-- The string that an operation returned, if it did not fail, has been obtained. -/
def obtain (obtained : Finset Addr) : Except LuaError Addr → Finset Addr
  | .ok a => insert a obtained
  | .error _ => obtained

def step (w : World) : Op → World
  | .newlstr block arrayOk str =>
    let (r, g) := luaS_newlstr block arrayOk str w.g
    { w with
      g := g, interned := w.interned ∪ (g.live \ w.g.live), obtained := obtain w.obtained r }
  | .bufstart block data =>
    let (r, g) := luaS_bufstart block data w.g
    match r with
    | .ok ts => { w with g := g, buffers := ts :: w.buffers }
    | .error _ => { w with g := g }
  | .bufwrite ts data => { w with g := w.g.set ts { w.g.heap ts with data := data } }
  | .buffinish arrayOk ts =>
    let (r, g) := luaS_buffinish arrayOk ts w.g
    { w with
      g := g
      interned := match r with
        | .ok a => insert a w.interned
        | .error _ => insert ts w.interned
      buffers := w.buffers.filter (· ≠ ts)
      obtained := obtain w.obtained r }
  | .bufdrop ts => { w with buffers := w.buffers.filter (· ≠ ts) }
  | .resize arrayOk newsize => { w with g := (luaS_resize arrayOk newsize w.g).2 }
  | .fix ts => { w with g := luaS_fix ts w.g }
  | .mark ts => { w with g := stringmark ts w.g }
  | .flip marks => { w with g := flipWhite (w.buffers ++ marks) w.g }
  | .sweep ts =>
    let g := sweepString ts w.g
    { w with
      g := g, interned := w.interned ∩ g.live, buffers := w.buffers.filter (· ∈ g.live)
      obtained := w.obtained ∩ g.live }

/-- What the callers and the allocator keep to: a new block is free, a buffer is filled within
its size and finished while it is in progress, and the collector works on allocated strings. -/
def Allowed (w : World) : Op → Prop
  | .newlstr block _ _ => ∀ ts ∈ block, ts ∉ w.g.live
  | .bufstart block _ => ∀ ts ∈ block, ts ∉ w.g.live
  | .bufwrite ts data => ts ∈ w.buffers ∧ data.length = (w.g.heap ts).data.length
  | .buffinish _ ts => ts ∈ w.buffers
  | .bufdrop _ => True
  | .resize _ newsize => ∃ k, newsize = 2 ^ k
  | .fix ts => ts ∈ w.g.live
  | .mark ts => ts ∈ w.g.live
  | .flip marks => ∀ ts ∈ marks, ts ∈ w.g.live
  | .sweep ts => ts ∈ w.g.live

/-- The worlds that a run can reach. -/
inductive Reachable : World → Prop
  | init : Reachable init
  | step {w : World} (h : Reachable w) (op : Op) (hop : w.Allowed op) : Reachable (w.step op)

/-- The invariant of a run. -/
structure Inv (w : World) : Prop where
  table : Table w.g w.interned
  white : IsWhite w.g.currentwhite
  marks : ∀ a ∈ w.g.live, OneWhite (w.g.heap a).marked
  /-- The buffers in progress are allocated and not condemned. -/
  buffers : ∀ a ∈ w.buffers, a ∈ w.g.live ∧ isdead w.g.currentwhite (w.g.heap a).marked = false
  fresh : ∀ a ∈ w.buffers, a ∉ w.interned
  obtained : w.obtained ⊆ w.interned

theorem Inv.init : Inv init where
  table := Table.init
  white := .inl rfl
  marks := by simp [World.init, GlobalState.init]
  buffers := by simp [World.init]
  fresh := by simp [World.init]
  obtained := by simp [World.init]

/-! ### Steps of the collector -/

variable {w : World}

/-- Other marks for a string that is then not condemned. -/
theorem Inv.setMarked (h : Inv w) (ts : Addr) {m : UInt8} (h1 : OneWhite m)
    (h2 : isdead w.g.currentwhite m = false) :
    Inv { w with g := w.g.setMarked ts m } := by
  have hsame := setMarked_heap w.g ts
  refine ⟨h.table.congr rfl (fun a _ => (hsame a m).1) (fun a _ => (hsame a m).2.1)
    (fun a _ => (hsame a m).2.2.1) h.table.subset, h.white, fun a ha => ?_, fun a ha => ?_,
    h.fresh, h.obtained⟩
  · simp only [(hsame a m).2.2.2]
    split_ifs
    · exact h1
    · exact h.marks a ha
  · refine ⟨(h.buffers a ha).1, ?_⟩
    simp only [(hsame a m).2.2.2]
    split_ifs
    · exact h2
    · exact (h.buffers a ha).2

theorem Inv.fix (h : Inv w) {ts : Addr} (hts : ts ∈ w.g.live) : Inv (w.step (.fix ts)) := by
  obtain ⟨h1, h2⟩ := fix_marks _ h.white (h.marks ts hts)
  exact h.setMarked ts h1 h2

theorem Inv.mark (h : Inv w) (ts : Addr) : Inv (w.step (.mark ts)) := by
  obtain ⟨h1, h2⟩ := stringmark_marks (w.g.heap ts).marked h.white
  exact h.setMarked ts h1 h2

theorem Inv.foldMark (h : Inv w) (marks : List Addr) :
    Inv { w with g := marks.foldl (fun g ts => stringmark ts g) w.g } := by
  induction marks generalizing w with
  | nil => exact h
  | cons ts marks ih => exact ih (h.mark ts)

/-- A string without a white bit keeps being without, and gets there when it is marked. -/
theorem foldMark_white {marks : List Addr} {g : GlobalState} {a : Addr}
    (h : a ∈ marks ∨ (g.heap a).marked &&& WHITEBITS = 0) :
    ((marks.foldl (fun g ts => stringmark ts g) g).heap a).marked &&& WHITEBITS = 0 := by
  induction marks generalizing g with
  | nil => exact h.resolve_left List.not_mem_nil
  | cons ts marks ih =>
    refine ih ?_
    by_cases ha : a = ts
    · subst ha
      right
      simp only [stringmark, (setMarked_heap _ _ _ _).2.2.2, if_true]
      exact stringmark_white _
    · refine h.imp (fun h => (List.mem_cons.mp h).resolve_left ha) fun h => ?_
      simpa only [stringmark, (setMarked_heap _ _ _ _).2.2.2, if_neg ha] using h

theorem Inv.flip (h : Inv w) (marks : List Addr) : Inv (w.step (.flip marks)) := by
  have hm := h.foldMark (w.buffers ++ marks)
  refine ⟨hm.table.congr rfl (fun _ _ => rfl) (fun _ _ => rfl) (fun _ _ => rfl) hm.table.subset,
    hm.white.flip, hm.marks, fun a ha => ⟨(hm.buffers a ha).1, ?_⟩, h.fresh, h.obtained⟩
  exact not_dead_of_marked _ hm.white.flip
    (foldMark_white (.inl (List.mem_append_left _ ha)))

/-- The sweep keeps a string that is not condemned, and frees one that is. -/
theorem Inv.sweep (h : Inv w) {ts : Addr} (hts : ts ∈ w.g.live) : Inv (w.step (.sweep ts)) := by
  have htest := sweep_test _ h.white (h.marks ts hts)
  by_cases hd : isdead w.g.currentwhite (w.g.heap ts).marked = false
  · obtain ⟨h1, h2⟩ := sweep_marks (w.g.heap ts).marked h.white
    have hkeep := h.setMarked ts h1 h2
    have hg : sweepString ts w.g = w.g.setMarked ts ((w.g.heap ts).marked &&&
        ~~~(BLACKMASK ||| WHITEBITS) ||| luaC_white w.g.currentwhite) := by
      rw [sweepString, if_pos (htest.mpr hd)]
    have hbuf : w.buffers.filter (· ∈ w.g.live) = w.buffers :=
      List.filter_eq_self.mpr fun a ha => decide_eq_true (h.buffers a ha).1
    have hstep : w.step (.sweep ts) = { w with g := sweepString ts w.g } := by
      have hlive : (sweepString ts w.g).live = w.g.live := by
        rw [hg]
        rfl
      simp only [step, hlive, hbuf, Finset.inter_eq_left.mpr h.table.subset,
        Finset.inter_eq_left.mpr (h.obtained.trans h.table.subset)]
    rw [hstep, hg]
    exact hkeep
  · have hg : sweepString ts w.g = luaS_free ts w.g := by
      rw [sweepString, if_neg fun hne => hd (htest.mp hne)]
    obtain ⟨h1, h2, h3, h4⟩ := h.table.free ts
    have hinter : w.interned ∩ (luaS_free ts w.g).live = w.interned.erase ts := by
      rw [h3, Finset.inter_erase, Finset.inter_eq_left.mpr h.table.subset]
    simp only [step, hg]
    refine ⟨by rw [hinter]; exact h1, by rw [h4]; exact h.white, fun a ha => ?_, fun a ha => ?_,
      fun a ha hi => ?_, Finset.inter_subset_inter_right h.obtained⟩
    · rw [(h2 a).2.2]
      rw [h3] at ha
      exact h.marks a (Finset.mem_of_mem_erase ha)
    · obtain ⟨ha, hl⟩ := List.mem_filter.mp ha
      rw [(h2 a).2.2, h4]
      exact ⟨of_decide_eq_true hl, (h.buffers a ha).2⟩
    · exact h.fresh a (List.mem_filter.mp ha).1 (Finset.mem_inter.mp hi).1

/-! ### Operations of the program -/

/-- The state `g'` is the state of `w` with the string `ts` interned as well. -/
structure Entered (w : World) (g' : GlobalState) (ts : Addr) (str : Bytes) : Prop where
  table : Table g' (insert ts w.interned)
  data : (g'.heap ts).data = str
  marked : OneWhite (g'.heap ts).marked ∧ isdead w.g.currentwhite (g'.heap ts).marked = false
  others : ∀ a ≠ ts, (g'.heap a).marked = (w.g.heap a).marked
  live : g'.live = insert ts w.g.live
  white : g'.currentwhite = w.g.currentwhite

theorem Entered.inv (h : Inv w) {g' : GlobalState} {ts : Addr} {str : Bytes}
    (he : Entered w g' ts str) {buffers : List Addr} {obtained : Finset Addr}
    (hb : ∀ a ∈ buffers, a ∈ w.buffers ∧ a ≠ ts) (ho : obtained ⊆ insert ts w.interned) :
    Inv ⟨g', insert ts w.interned, buffers, obtained⟩ := by
  refine ⟨he.table, by rw [he.white]; exact h.white, fun a ha => ?_, fun a ha => ?_, ?_, ho⟩
  · by_cases hats : a = ts
    · exact hats ▸ he.marked.1
    · rw [he.others a hats]
      rw [he.live] at ha
      exact h.marks a (Finset.mem_of_mem_insert_of_ne ha hats)
  · obtain ⟨hab, hats⟩ := hb a ha
    rw [he.others a hats, he.white, he.live]
    exact ⟨Finset.mem_insert_of_mem (h.buffers a hab).1, (h.buffers a hab).2⟩
  · intro a ha hi
    obtain ⟨hab, hats⟩ := hb a ha
    exact h.fresh a hab (Finset.mem_of_mem_insert_of_ne hi hats)

/-- What `luaS_newlstr` does: it finds the string, or fails before any change, or interns a new
string. -/
theorem Inv.newlstr_cases (h : Inv w) {block : Option Addr} (arrayOk : Bool) (str : Bytes)
    (hblock : ∀ ts ∈ block, ts ∉ w.g.live) :
    let r := luaS_newlstr block arrayOk str w.g
    (∃ el m, el ∈ w.interned ∧ (w.g.heap el).data = str ∧ r = (.ok el, w.g.setMarked el m) ∧
      OneWhite m ∧ isdead w.g.currentwhite m = false) ∨
    (∃ e, r = (.error e, w.g) ∧
      (e = .toobig ∧ MAXSSIZE < str.length ∨ e = .errmem ∧ block = none)) ∨
    ∃ ts, block = some ts ∧ Entered w r.2 ts str ∧
      (r.1 = .ok ts ∨ r.1 = .error .errmem ∧ arrayOk = false) := by
  simp only [luaS_newlstr]
  cases hf : lookup (luaS_hash str) str w.g with
  | some el =>
    left
    obtain ⟨hel, hd⟩ := h.table.lookup_some hf
    obtain ⟨m, hm, hdead, hone⟩ := resurrect_spec el h.white
    exact ⟨el, m, hel, hd, by simp only [hm], hone (h.marks el (h.table.subset hel)), hdead⟩
  | none =>
    right
    simp only [newlstr]
    by_cases hbig : str.length > MAXSSIZE
    · rw [if_pos hbig]
      exact .inl ⟨_, rfl, .inl ⟨rfl, hbig⟩⟩
    rw [if_neg hbig]
    cases block with
    | none => exact .inl ⟨_, rfl, .inr ⟨rfl, rfl⟩⟩
    | some ts =>
      right
      have hts : ts ∉ w.g.live := hblock ts rfl
      have htsI : ts ∉ w.interned := fun hi => hts (h.table.subset hi)
      set g₁ : GlobalState := { w.g.set ts ⟨luaS_hash str, str, none, luaC_white w.g.currentwhite⟩
        with live := insert ts w.g.live } with hg₁
      have hother : ∀ a ≠ ts, g₁.heap a = w.g.heap a := fun a ha => Function.update_of_ne ha _ _
      have hself : g₁.heap ts = ⟨luaS_hash str, str, none, luaC_white w.g.currentwhite⟩ :=
        Function.update_self _ _ _
      have hne : ∀ a ∈ w.interned, a ≠ ts := fun a ha e => htsI (e ▸ ha)
      have htable : Table g₁ w.interned :=
        h.table.frame htsI rfl hother (Finset.subset_insert ts _)
      obtain ⟨h1, h2, h3, h4, h5⟩ := htable.chain_spec htsI (Finset.mem_insert_self ts _)
        (by rw [hself]) (by
          intro a ha
          rw [hother a (hne a ha), hself]
          exact h.table.lookup_none hf a ha) arrayOk
      rw [hself] at h1 h2 h3 h4 h5
      obtain ⟨hw1, hw2⟩ := new_marks h.white
      refine ⟨ts, rfl, ⟨h1, ?_, ?_, fun a ha => ?_, h3, h4⟩, h5⟩
      · rw [(h2 ts).2.1, hself]
      · rw [(h2 ts).2.2, hself]
        exact ⟨hw1, hw2⟩
      · rw [(h2 a).2.2, hother a ha]

/-- What `luaS_buffinish` does: it finds the string, or interns the buffer. -/
theorem Inv.buffinish_cases (h : Inv w) (arrayOk : Bool) {ts : Addr} (hts : ts ∈ w.buffers) :
    let r := luaS_buffinish arrayOk ts w.g
    (∃ el m, el ∈ w.interned ∧ (w.g.heap el).data = (w.g.heap ts).data ∧
      r = (.ok el, w.g.setMarked el m) ∧ OneWhite m ∧ isdead w.g.currentwhite m = false) ∨
    Entered w r.2 ts (w.g.heap ts).data ∧
      (r.1 = .ok ts ∨ r.1 = .error .errmem ∧ arrayOk = false) := by
  simp only [luaS_buffinish]
  cases hf : lookup (luaS_hash (w.g.heap ts).data) (w.g.heap ts).data w.g with
  | some el =>
    left
    obtain ⟨hel, hd⟩ := h.table.lookup_some hf
    obtain ⟨m, hm, hdead, hone⟩ := resurrect_spec el h.white
    exact ⟨el, m, hel, hd, by simp only [hm], hone (h.marks el (h.table.subset hel)), hdead⟩
  | none =>
    right
    have htsI : ts ∉ w.interned := h.fresh ts hts
    set g₁ := w.g.set ts { w.g.heap ts with hash := luaS_hash (w.g.heap ts).data } with hg₁
    have hother : ∀ a ≠ ts, g₁.heap a = w.g.heap a := fun a ha => Function.update_of_ne ha _ _
    have hself : g₁.heap ts = { w.g.heap ts with hash := luaS_hash (w.g.heap ts).data } :=
      Function.update_self _ _ _
    have hne : ∀ a ∈ w.interned, a ≠ ts := fun a ha e => htsI (e ▸ ha)
    have htable : Table g₁ w.interned := h.table.frame htsI rfl hother (Finset.Subset.refl _)
    obtain ⟨hlive, hdead⟩ := h.buffers ts hts
    obtain ⟨h1, h2, h3, h4, h5⟩ := htable.chain_spec htsI hlive (by rw [hself]) (by
        intro a ha
        rw [hother a (hne a ha), hself]
        exact h.table.lookup_none hf a ha) arrayOk
    rw [hself] at h1 h2 h3 h4 h5
    refine ⟨⟨h1, ?_, ?_, fun a ha => ?_, ?_, h4⟩, h5⟩
    · rw [(h2 ts).2.1, hself]
    · rw [(h2 ts).2.2, hself]
      exact ⟨h.marks ts hlive, hdead⟩
    · rw [(h2 a).2.2, hother a ha]
    · rw [h3, Finset.insert_eq_of_mem hlive]
      rfl

theorem Inv.newlstr (h : Inv w) {block : Option Addr} (arrayOk : Bool) (str : Bytes)
    (hblock : ∀ ts ∈ block, ts ∉ w.g.live) : Inv (w.step (.newlstr block arrayOk str)) := by
  rcases h.newlstr_cases arrayOk str hblock with
    ⟨el, m, hel, -, hr, h1, h2⟩ | ⟨e, hr, -⟩ | ⟨ts, hts, he, hr⟩
  · have hinv := h.setMarked el h1 h2
    simp only [step, hr]
    rw [show (w.g.setMarked el m).live = w.g.live from rfl, Finset.sdiff_self, Finset.union_empty]
    exact ⟨hinv.table, hinv.white, hinv.marks, hinv.buffers, hinv.fresh,
      Finset.insert_subset hel h.obtained⟩
  · simp only [step, hr, Finset.sdiff_self, Finset.union_empty]
    exact ⟨h.table, h.white, h.marks, h.buffers, h.fresh, h.obtained⟩
  · have htsL : ts ∉ w.g.live := hblock ts hts
    have hset : w.interned ∪ ((luaS_newlstr block arrayOk str w.g).2.live \ w.g.live) =
        insert ts w.interned := by
      rw [he.live, Finset.insert_sdiff_of_notMem _ htsL, Finset.sdiff_self,
        insert_empty_eq, Finset.union_comm, ← Finset.insert_eq]
    simp only [step, hset]
    refine he.inv h (fun a ha => ⟨ha, ?_⟩) ?_
    · rintro rfl
      exact htsL (h.buffers a ha).1
    · rcases hr with hr | ⟨hr, -⟩
      · rw [hr]
        exact Finset.insert_subset_insert _ h.obtained
      · rw [hr]
        exact h.obtained.trans (Finset.subset_insert _ _)

theorem Inv.bufstart (h : Inv w) {block : Option Addr} {data : Bytes}
    (hblock : ∀ ts ∈ block, ts ∉ w.g.live) : Inv (w.step (.bufstart block data)) := by
  simp only [step, luaS_bufstart]
  split_ifs
  · exact h
  · cases block with
    | none => exact h
    | some ts =>
      have hts : ts ∉ w.g.live := hblock ts rfl
      have htsI : ts ∉ w.interned := fun hi => hts (h.table.subset hi)
      have hother : ∀ a ≠ ts, (w.g.set ts ⟨0, data, none, luaC_white w.g.currentwhite⟩).heap a =
          w.g.heap a := fun a ha => Function.update_of_ne ha _ _
      have hself : (w.g.set ts ⟨0, data, none, luaC_white w.g.currentwhite⟩).heap ts =
          ⟨0, data, none, luaC_white w.g.currentwhite⟩ := Function.update_self _ _ _
      obtain ⟨hw1, hw2⟩ := new_marks h.white
      refine ⟨h.table.frame htsI rfl hother (Finset.subset_insert ts _), h.white,
        fun a ha => ?_, fun a ha => ?_, fun a ha => ?_, h.obtained⟩
      · by_cases hats : a = ts
        · rw [hats]
          simp only [hself]
          exact hw1
        · simp only [hother a hats]
          exact h.marks a (Finset.mem_of_mem_insert_of_ne ha hats)
      · by_cases hats : a = ts
        · rw [hats]
          simp only [hself]
          exact ⟨Finset.mem_insert_self ts _, hw2⟩
        · simp only [hother a hats]
          have ha := (List.mem_cons.mp ha).resolve_left hats
          exact ⟨Finset.mem_insert_of_mem (h.buffers a ha).1, (h.buffers a ha).2⟩
      · rcases List.mem_cons.mp ha with rfl | ha
        · exact htsI
        · exact h.fresh a ha

theorem Inv.bufwrite (h : Inv w) {ts : Addr} {data : Bytes} (hts : ts ∈ w.buffers) :
    Inv (w.step (.bufwrite ts data)) := by
  have hother : ∀ a ≠ ts, (w.g.set ts { w.g.heap ts with data := data }).heap a = w.g.heap a :=
    fun a ha => Function.update_of_ne ha _ _
  have hmarked : ∀ a, ((w.g.set ts { w.g.heap ts with data := data }).heap a).marked =
      (w.g.heap a).marked := by
    intro a
    by_cases hats : a = ts
    · subst hats
      simp [GlobalState.set]
    · rw [hother a hats]
  refine ⟨h.table.frame (h.fresh ts hts) rfl hother (Finset.Subset.refl _), h.white,
    fun a ha => ?_, fun a ha => ?_, h.fresh, h.obtained⟩
  · simp only [step, hmarked]
    exact h.marks a ha
  · simp only [step, hmarked]
    exact h.buffers a ha

theorem Inv.buffinish (h : Inv w) (arrayOk : Bool) {ts : Addr} (hts : ts ∈ w.buffers) :
    Inv (w.step (.buffinish arrayOk ts)) := by
  rcases h.buffinish_cases arrayOk hts with ⟨el, m, hel, -, hr, h1, h2⟩ | ⟨he, hr⟩
  · have hinv := h.setMarked el h1 h2
    simp only [step, hr, Finset.insert_eq_of_mem hel]
    exact ⟨hinv.table, hinv.white, hinv.marks, fun a ha => hinv.buffers a (List.mem_filter.mp ha).1,
      fun a ha => hinv.fresh a (List.mem_filter.mp ha).1, Finset.insert_subset hel h.obtained⟩
  · have hbuf : ∀ a ∈ w.buffers.filter (· ≠ ts), a ∈ w.buffers ∧ a ≠ ts := fun a ha =>
      ⟨(List.mem_filter.mp ha).1, of_decide_eq_true (List.mem_filter.mp ha).2⟩
    rcases hr with hr | ⟨hr, -⟩
    · simp only [step, hr]
      exact he.inv h hbuf (Finset.insert_subset_insert _ h.obtained)
    · simp only [step, hr]
      exact he.inv h hbuf (h.obtained.trans (Finset.subset_insert _ _))

theorem Inv.resize (h : Inv w) {arrayOk : Bool} {newsize : ℕ} (hpow : ∃ k, newsize = 2 ^ k) :
    Inv (w.step (.resize arrayOk newsize)) := by
  obtain ⟨h1, h2, h3, h4⟩ := h.table.resize arrayOk newsize hpow
  refine ⟨h1, h4.symm ▸ h.white, fun a ha => ?_, fun a ha => ?_, h.fresh, h.obtained⟩
  · simp only [step, (h2 a).2.2]
    exact h.marks a (h3 ▸ ha)
  · simp only [step, (h2 a).2.2, h3, h4]
    exact h.buffers a ha

/-- Every step keeps the invariant. -/
theorem Inv.step (h : Inv w) {op : Op} (hop : w.Allowed op) : Inv (w.step op) := by
  cases op with
  | newlstr block arrayOk str => exact h.newlstr arrayOk str hop
  | bufstart block data => exact h.bufstart hop
  | bufwrite ts data => exact h.bufwrite hop.1
  | buffinish arrayOk ts => exact h.buffinish arrayOk hop
  | bufdrop ts =>
    exact ⟨h.table, h.white, h.marks, fun a ha => h.buffers a (List.mem_filter.mp ha).1,
      fun a ha => h.fresh a (List.mem_filter.mp ha).1, h.obtained⟩
  | resize arrayOk newsize => exact h.resize hop
  | fix ts => exact h.fix hop
  | mark ts => exact h.mark ts
  | flip marks => exact h.flip marks
  | sweep ts => exact h.sweep hop

/-- Every reachable world has the invariant. -/
theorem Reachable.inv (h : Reachable w) : Inv w := by
  induction h with
  | init => exact Inv.init
  | step _ op hop ih => exact ih.step hop

/-! ### What every run guarantees -/

/-- The world after a call that returned the string `a` for the contents `str`: it is interned
with these contents, it is not condemned, and the running sweep does not free it. -/
def Returned (w : World) (a : Addr) (str : Bytes) : Prop :=
  a ∈ w.interned ∧ (w.g.heap a).data = str ∧
    isdead w.g.currentwhite (w.g.heap a).marked = false ∧ a ∈ (sweepString a w.g).live

theorem Inv.returned (h : Inv w) {a : Addr} {str : Bytes} (ha : a ∈ w.interned)
    (hd : (w.g.heap a).data = str) (hm : isdead w.g.currentwhite (w.g.heap a).marked = false) :
    Returned w a str := by
  have hlive := h.table.subset ha
  refine ⟨ha, hd, hm, ?_⟩
  rw [sweepString, if_pos ((sweep_test _ h.white (h.marks a hlive)).mpr hm)]
  exact hlive

theorem Inv.newlstr_returned (h : Inv w) {block : Option Addr} (arrayOk : Bool) (str : Bytes)
    (hblock : ∀ ts ∈ block, ts ∉ w.g.live) {a : Addr}
    (hr : (luaS_newlstr block arrayOk str w.g).1 = .ok a) :
    Returned (w.step (.newlstr block arrayOk str)) a str := by
  have hinv := h.newlstr arrayOk str hblock
  rcases h.newlstr_cases arrayOk str hblock with
    ⟨el, m, hel, hd, hc, -, hm⟩ | ⟨e, hc, -⟩ | ⟨ts, hts, he, hc⟩
  · obtain rfl : el = a := by simpa [hc] using hr
    have hself := setMarked_heap w.g el el m
    refine hinv.returned (Finset.mem_union_left _ hel) ?_ ?_
    · simp only [World.step, hc]
      exact hself.2.2.1.trans hd
    · simp only [World.step, hc, hself.2.2.2, if_true]
      exact hm
  · simp [hc] at hr
  · obtain rfl : ts = a := by
      rcases hc with hc | ⟨hc, -⟩
      · simpa [hc] using hr
      · simp [hc] at hr
    refine hinv.returned (Finset.mem_union_right _ ?_) he.data ?_
    · refine Finset.mem_sdiff.mpr ⟨?_, hblock ts hts⟩
      exact he.live ▸ Finset.mem_insert_self _ _
    · simp only [World.step, he.white]
      exact he.marked.2

theorem Inv.buffinish_returned (h : Inv w) (arrayOk : Bool) {ts a : Addr} (hts : ts ∈ w.buffers)
    (hr : (luaS_buffinish arrayOk ts w.g).1 = .ok a) :
    Returned (w.step (.buffinish arrayOk ts)) a (w.g.heap ts).data := by
  have hinv := h.buffinish arrayOk hts
  have hmem : a ∈ (w.step (.buffinish arrayOk ts)).interned := by
    simp only [World.step, hr]
    exact Finset.mem_insert_self _ _
  rcases h.buffinish_cases arrayOk hts with ⟨el, m, -, hd, hc, -, hm⟩ | ⟨he, hc⟩
  · obtain rfl : el = a := by simpa [hc] using hr
    have hself := setMarked_heap w.g el el m
    refine hinv.returned hmem ?_ ?_
    · simp only [World.step, hc]
      exact hself.2.2.1.trans hd
    · simp only [World.step, hc, hself.2.2.2, if_true]
      exact hm
  · obtain rfl : ts = a := by
      rcases hc with hc | ⟨hc, -⟩
      · simpa [hc] using hr
      · simp [hc] at hr
    refine hinv.returned hmem he.data ?_
    simp only [World.step, he.white]
    exact he.marked.2

/-- An error of `luaS_newlstr` is a string that is too long, or a failed allocation. -/
theorem Inv.newlstr_error (h : Inv w) {block : Option Addr} (arrayOk : Bool) (str : Bytes)
    (hblock : ∀ ts ∈ block, ts ∉ w.g.live) {e : LuaError}
    (hr : (luaS_newlstr block arrayOk str w.g).1 = .error e) :
    e = .toobig ∧ MAXSSIZE < str.length ∨ e = .errmem ∧ (block = none ∨ arrayOk = false) := by
  rcases h.newlstr_cases arrayOk str hblock with
    ⟨el, m, -, -, hc, -⟩ | ⟨e', hc, he⟩ | ⟨ts, -, -, hc | ⟨hc, hok⟩⟩
  · simp [hc] at hr
  · obtain rfl : e' = e := by simpa [hc] using hr
    exact he.imp id fun ⟨h1, h2⟩ => ⟨h1, .inl h2⟩
  · simp [hc] at hr
  · obtain rfl : LuaError.errmem = e := by simpa [hc] using hr
    exact .inr ⟨rfl, .inr hok⟩

/-- An error of `luaS_buffinish` is a failed allocation. -/
theorem Inv.buffinish_error (h : Inv w) (arrayOk : Bool) {ts : Addr} (hts : ts ∈ w.buffers)
    {e : LuaError} (hr : (luaS_buffinish arrayOk ts w.g).1 = .error e) :
    e = .errmem ∧ arrayOk = false := by
  rcases h.buffinish_cases arrayOk hts with ⟨el, m, -, -, hc, -⟩ | ⟨-, hc | ⟨hc, hok⟩⟩
  · simp [hc] at hr
  · simp [hc] at hr
  · obtain rfl : LuaError.errmem = e := by simpa [hc] using hr
    exact ⟨rfl, hok⟩

/-- **Strings are interned.**  In every reachable world every interned string is visited by the
chain of its hash, once, and by no other chain; the chains visit nothing else, in particular no
buffer in progress; `nuse` counts the interned strings, and no two of them have the same contents.
`luaS_newlstr` and `luaS_buffinish` return the interned string with the requested contents, which
the running sweep does not free, unless the string is too long or an allocation fails.  So two
strings that were obtained and are not freed are the same if their contents are. -/
theorem interning (h : Reachable w) :
    (∀ i < w.g.strt.size, ∃ l, Chain w.g.next (w.g.strt.hash i) l ∧ l.Nodup ∧
      ∀ a, a ∈ l ↔ a ∈ w.interned ∧ lmod (w.g.heap a).hash w.g.strt.size = i) ∧
    (∀ a ∈ w.interned, (w.g.heap a).hash = luaS_hash (w.g.heap a).data ∧
      lmod (w.g.heap a).hash w.g.strt.size < w.g.strt.size) ∧
    (∀ a ∈ w.buffers, a ∉ w.interned) ∧
    w.g.strt.nuse = UInt32.ofNat w.interned.card ∧
    (∀ a ∈ w.interned, ∀ b ∈ w.interned, (w.g.heap a).data = (w.g.heap b).data → a = b) ∧
    (∀ block arrayOk str, (∀ ts ∈ block, ts ∉ w.g.live) →
      match (luaS_newlstr block arrayOk str w.g).1 with
      | .ok a => Returned (w.step (.newlstr block arrayOk str)) a str
      | .error e =>
        e = .toobig ∧ MAXSSIZE < str.length ∨ e = .errmem ∧ (block = none ∨ arrayOk = false)) ∧
    (∀ arrayOk, ∀ ts ∈ w.buffers,
      match (luaS_buffinish arrayOk ts w.g).1 with
      | .ok a => Returned (w.step (.buffinish arrayOk ts)) a (w.g.heap ts).data
      | .error e => e = .errmem ∧ arrayOk = false) ∧
    ∀ a ∈ w.obtained, ∀ b ∈ w.obtained, (w.g.heap a).data = (w.g.heap b).data ↔ a = b := by
  have hinv := h.inv
  refine ⟨fun i hi => ?_, fun a ha => ⟨hinv.table.hash_eq a ha, lmod_lt _ hinv.table.size_pow⟩,
    hinv.fresh, hinv.table.nuse_eq, hinv.table.unique, fun block arrayOk str hblock => ?_,
    fun arrayOk ts hts => ?_, fun a ha b hb => ?_⟩
  · obtain ⟨l, hl, hmem⟩ := hinv.table.buckets i hi
    exact ⟨l, hl, hl.nodup, hmem⟩
  · split
    · rename_i a hr
      exact hinv.newlstr_returned arrayOk str hblock hr
    · rename_i e hr
      exact hinv.newlstr_error arrayOk str hblock hr
  · split
    · rename_i a hr
      exact hinv.buffinish_returned arrayOk hts hr
    · rename_i e hr
      exact hinv.buffinish_error arrayOk hts hr
  · refine ⟨hinv.table.unique a (hinv.obtained ha) b (hinv.obtained hb), ?_⟩
    rintro rfl
    rfl

theorem interning_flipped_buffer :
    let w := (((init.step (.newlstr (some 7) true [104, 105])).step (.bufstart (some 8) [0])).step
      (.flip [])).step (.buffinish true 8)
    ∀ a ∈ w.obtained, ∀ b ∈ w.obtained, (w.g.heap a).data = (w.g.heap b).data ↔ a = b :=
  (interning ((((Reachable.init.step (.newlstr (some 7) true [104, 105])
    (by rintro _ ⟨⟩; decide)).step (.bufstart (some 8) [0])
    (by rintro _ ⟨⟩; decide)).step (.flip []) (by simp [Allowed])).step
    (.buffinish true 8) (by simp only [Allowed]; decide))).2.2.2.2.2.2.2

end World

end Str

end Jaci
