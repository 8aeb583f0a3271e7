import Jaci.Lib.Machine
import Jaci.Lsp.Document
import Jaci.Vfs.Compress
import Mathlib.Logic.Function.Basic

/-!
# Where the language server takes its sources from

`readSource` takes the text of a module from the open documents, then from its cache, then from the
file, which it puts in the cache.  Nothing is ever taken out of the cache.

* `uriToPath`, `readFile`, `CompressedFileBuffer`, `readSource` : the source;
* `server` : the server and its surroundings, for every order of messages, requests and changes of
  files;
* `Keeps` : the steps after which the cache has what the files have;
* `readSource_current` : in the runs of such steps, `readSource` gives the current text.
-/

namespace Jaci

namespace Lsp

open Wire

/-! ### Paths -/

/-- The bytes of `file://`. -/
def fileScheme : Bytes := [102, 105, 108, 101, 58, 47, 47]

/-- `hexVal` of `uriToPath`. -/
def hexVal (c : UInt8) : Option ℕ :=
  if 48 ≤ c ∧ c ≤ 57 then some (c.toNat - 48)
  else if 97 ≤ c ∧ c ≤ 102 then some (c.toNat - 97 + 10)
  else if 65 ≤ c ∧ c ≤ 70 then some (c.toNat - 65 + 10)
  else none

/-- The loop of `uriToPath`: `%` and two digits are one byte. -/
def decodePercent : Bytes → Bytes
  | c :: a :: b :: rest =>
    if c = 37 then
      match hexVal a, hexVal b with
      | some h1, some h2 => UInt8.ofNat (h1 <<< 4 ||| h2) :: decodePercent rest
      | _, _ => c :: decodePercent (a :: b :: rest)
    else c :: decodePercent (a :: b :: rest)
  | c :: rest => c :: decodePercent rest
  | [] => []

def uriToPath (uri : Bytes) : Bytes :=
  if fileScheme.isPrefixOf uri then decodePercent (uri.drop 7) else uri

/-- The path that `readSource` reads for a name. -/
def fsPath (name : Bytes) : Bytes :=
  if fileScheme.isPrefixOf name then uriToPath name else name

theorem fsPath_eq (name : Bytes) : fsPath name = uriToPath name := by
  rw [fsPath]
  split_ifs with h
  · rfl
  · rw [uriToPath, if_neg h]

/-! ### Files -/

/-- The files: what each path has. -/
abbrev Disk := Bytes → Option Bytes

/-- `readFileDisk`: a first line with a shebang is skipped.  The path is a C string. -/
def readFileDisk (disk : Disk) (name : Bytes) : Option Bytes :=
  (disk (name.takeWhile (· ≠ 0))).map fun result =>
    if result.length > 2 ∧ result.take 2 = [35, 33] then result.dropWhile (· ≠ 10) else result

/-- `readFile`: the files that are embedded in the binary come first. -/
def readFile (embedded : Bytes → Option Bytes) (disk : Disk) (name : Bytes) : Option Bytes :=
  match embedded name with
  | some content => some content
  | none => readFileDisk disk name

/-- A text of the cache. -/
structure CompressedFileBuffer where
  data : Bytes
  origSize : ℕ
  isComp : Bool

def CompressedFileBuffer.setText (text : Bytes) (autoCompress : Bool) : CompressedFileBuffer :=
  if autoCompress ∧ text.length > 512 then ⟨Vfs.compress text, text.length, true⟩
  else ⟨text, text.length, false⟩

def CompressedFileBuffer.getText (buffer : CompressedFileBuffer) : Bytes :=
  if buffer.isComp then Vfs.decompress buffer.data buffer.origSize else buffer.data

/-! ### The server -/

/-- The server, and the files around it. -/
structure Server where
  documents : List (Bytes × DocumentState)
  cachedFiles : Bytes → Option CompressedFileBuffer
  disk : Disk

def Server.openDocument (s : Server) (uri text : Bytes) (version : ℤ) : Server :=
  let doc := DocumentState.updateText ⟨uriToPath uri, version, [], []⟩ text
  { s with documents := (uri, doc) :: s.documents.filter (·.1 ≠ uri) }

/-- `textDocument/didChange`. -/
def Server.didChange (s : Server) (uri : Bytes) (version : ℤ) (changes : List ContentChange) :
    Server :=
  { s with documents := s.documents.map fun pair =>
      if pair.1 = uri then (uri, changes.foldl DocumentState.applyChange { pair.2 with version })
      else pair }

def Server.closeDocument (s : Server) (uri : Bytes) : Server :=
  { s with documents := s.documents.filter (·.1 ≠ uri) }

/-- `cachedFiles.emplace`, for a path that is not in the cache. -/
def Server.cacheFile (s : Server) (path content : Bytes) : Server :=
  let buffer := CompressedFileBuffer.setText content true
  { s with cachedFiles := Function.update s.cachedFiles path (some buffer) }

section Server

variable (embedded : Bytes → Option Bytes)

/-- `LspFileResolver::readSource`.  The documents are walked in the order of a hash map. -/
def readSource (walk : List (Bytes × DocumentState)) (s : Server) (name : Bytes) :
    Option Bytes × Server :=
  match walk.find? fun pair =>
      pair.1 = name ∨ pair.2.path = fsPath name ∨ pair.2.path = name with
  | some pair => (some pair.2.text, s)
  | none =>
    match s.cachedFiles (fsPath name) with
    | some buffer => (some buffer.getText, s)
    | none =>
      match readFile embedded s.disk (fsPath name) with
      | some content =>
        (some content, s.cacheFile (fsPath name) content)
      | none => (none, s)

/-- What can happen. -/
inductive Op where
  | didOpen (uri text : Bytes) (version : ℤ)
  | didChange (uri : Bytes) (version : ℤ) (changes : List ContentChange)
  /-- The client saves a document: only diagnostics are published. -/
  | didSave (uri : Bytes)
  | didClose (uri : Bytes)
  | files (disk : Disk)
  /-- A request reads a source, with the walk over the documents. -/
  | read (walk : List (Bytes × DocumentState)) (name : Bytes)

def Server.exec (s : Server) : Op → Server
  | .didOpen uri text version => s.openDocument uri text version
  | .didChange uri version changes => s.didChange uri version changes
  | .didSave _ => s
  | .didClose uri => s.closeDocument uri
  | .files disk => { s with disk }
  | .read walk name => (readSource embedded walk s name).2

/-- The server: it starts without documents and with an empty cache. -/
def server : Machine Server Op where
  init s := s.documents = [] ∧ ∀ p, s.cachedFiles p = none
  enabled s
    | .read walk _ => walk.Perm s.documents
    | _ => True
  exec := Server.exec embedded

/-! ### What is current -/

/-- The document is for the file of that name. -/
def DocumentFor (name : Bytes) (doc : DocumentState) : Prop :=
  doc.path = fsPath name ∨ doc.path = name

/-- The text of an open document for the name; without one, what the file has. -/
def Current (s : Server) (name : Bytes) (result : Option Bytes) : Prop :=
  (∃ pair ∈ s.documents, DocumentFor name pair.2 ∧ result = some pair.2.text) ∨
    (∀ pair ∈ s.documents, ¬ DocumentFor name pair.2) ∧
      result = readFile embedded s.disk (fsPath name)

/-- A document is open for the path. -/
def Server.IsOpen (s : Server) (p : Bytes) : Prop := ∃ pair ∈ s.documents, pair.2.path = p

/-- The steps after which the cache has what the files have: a file does not change while it is in
the cache and not open; when the last document for a path is closed that is in the cache, the file
has the text of the cache; and a text that goes to the cache survives the compression. -/
def Keeps (s : Server) : Op → Prop
  | .files disk => ∀ p, (s.cachedFiles p).isSome → ¬ s.IsOpen p →
      readFile embedded disk p = readFile embedded s.disk p
  | .didClose uri => ∀ p buffer, s.cachedFiles p = some buffer → s.IsOpen p →
      ¬ (s.closeDocument uri).IsOpen p → some buffer.getText = readFile embedded s.disk p
  | .read _ name => ∀ content, readFile embedded s.disk (fsPath name) = some content →
      s.cachedFiles (fsPath name) = none → ¬ s.IsOpen (fsPath name) → ¬ s.IsOpen name →
        content.length > 512 → Vfs.decompress (Vfs.compress content) content.length = content
  | _ => True

/-! ### Invariant -/

/-- What is kept. -/
structure Fresh (s : Server) : Prop where
  paths : ∀ pair ∈ s.documents, pair.2.path = uriToPath pair.1
  /-- The cache has what the file has, where no document is open. -/
  cache : ∀ p buffer, s.cachedFiles p = some buffer → ¬ s.IsOpen p →
    some buffer.getText = readFile embedded s.disk p

variable {embedded} {s : Server}

theorem applyChange_path (doc : DocumentState) (change : ContentChange) :
    (doc.applyChange change).path = doc.path := by
  unfold DocumentState.applyChange
  split <;> rfl

theorem applyChanges_path (doc : DocumentState) (changes : List ContentChange) :
    (changes.foldl DocumentState.applyChange doc).path = doc.path := by
  induction changes generalizing doc with
  | nil => rfl
  | cons change changes ih => rw [List.foldl_cons, ih, applyChange_path]

theorem getText_setText {content : Bytes}
    (h : content.length > 512 → Vfs.decompress (Vfs.compress content) content.length = content) :
    (CompressedFileBuffer.setText content true).getText = content := by
  rw [CompressedFileBuffer.setText]
  split_ifs with hlong
  · exact h hlong.2
  · rfl

/-- The cases of `readSource`. -/
theorem readSource_cases (walk : List (Bytes × DocumentState)) (name : Bytes) :
    (∃ pair ∈ walk, (pair.1 = name ∨ DocumentFor name pair.2) ∧
      readSource embedded walk s name = (some pair.2.text, s)) ∨
    (∀ pair ∈ walk, ¬ DocumentFor name pair.2) ∧
      ((∃ buffer, s.cachedFiles (fsPath name) = some buffer ∧
        readSource embedded walk s name = (some buffer.getText, s)) ∨
      s.cachedFiles (fsPath name) = none ∧
        (readSource embedded walk s name).1 = readFile embedded s.disk (fsPath name) ∧
        ((readSource embedded walk s name).2 = s ∨
        ∃ content, readFile embedded s.disk (fsPath name) = some content ∧
          (readSource embedded walk s name).2 = s.cacheFile (fsPath name) content)) := by
  unfold readSource
  cases hfind : walk.find? fun pair =>
      pair.1 = name ∨ pair.2.path = fsPath name ∨ pair.2.path = name with
  | some pair =>
    refine .inl ⟨pair, List.mem_of_find?_eq_some hfind, ?_, rfl⟩
    simpa [DocumentFor] using List.find?_some hfind
  | none =>
    refine .inr ⟨fun pair hp hfor => ?_, ?_⟩
    · exact List.find?_eq_none.mp hfind pair hp (by simpa using .inr hfor)
    cases hcache : s.cachedFiles (fsPath name) with
    | some buffer => exact .inl ⟨buffer, rfl, rfl⟩
    | none =>
      refine .inr ⟨rfl, ?_⟩
      cases hread : readFile embedded s.disk (fsPath name) with
      | some content => exact ⟨rfl, .inr ⟨content, rfl, rfl⟩⟩
      | none => exact ⟨rfl, .inl rfl⟩

/-- **With a fresh cache, `readSource` gives the current text.** -/
theorem Fresh.readSource (h : Fresh embedded s) {walk : List (Bytes × DocumentState)}
    (hwalk : walk.Perm s.documents) (name : Bytes) :
    Current embedded s name (readSource embedded walk s name).1 := by
  rcases readSource_cases walk name with ⟨pair, hp, hfor, hr⟩ | ⟨hnone, hr⟩
  · have hp' := hwalk.mem_iff.mp hp
    refine .inl ⟨pair, hp', ?_, by rw [hr]⟩
    rcases hfor with rfl | hfor
    · exact .inl ((h.paths pair hp').trans (fsPath_eq _).symm)
    · exact hfor
  · have hnone' : ∀ pair ∈ s.documents, ¬ DocumentFor name pair.2 :=
      fun pair hp => hnone pair (hwalk.mem_iff.mpr hp)
    refine .inr ⟨hnone', ?_⟩
    rcases hr with ⟨buffer, hb, hr⟩ | ⟨-, hr, -⟩
    · rw [hr]
      refine h.cache _ _ hb ?_
      rintro ⟨pair, hp, hpath⟩
      exact hnone' pair hp (.inl hpath)
    · exact hr

theorem mem_openDocument {uri text : Bytes} {version : ℤ} {pair : Bytes × DocumentState}
    (h : pair ∈ (s.openDocument uri text version).documents) :
    pair = (uri, DocumentState.updateText ⟨uriToPath uri, version, [], []⟩ text) ∨
      pair ∈ s.documents := by
  rcases List.mem_cons.mp h with h | h
  · exact .inl h
  · exact .inr (List.mem_of_mem_filter h)

/-- Opening a document closes none of another path. -/
theorem IsOpen.openDocument (hpaths : ∀ pair ∈ s.documents, pair.2.path = uriToPath pair.1)
    {p : Bytes} (h : s.IsOpen p) (uri text : Bytes) (version : ℤ) :
    (s.openDocument uri text version).IsOpen p := by
  obtain ⟨pair, hp, rfl⟩ := h
  by_cases huri : pair.1 = uri
  · refine ⟨_, List.mem_cons_self, ?_⟩
    rw [hpaths pair hp, huri]
    rfl
  · exact ⟨pair, List.mem_cons_of_mem _ (List.mem_filter.mpr ⟨hp, by simpa using huri⟩), rfl⟩

theorem isOpen_didChange {uri : Bytes} {version : ℤ} {changes : List ContentChange} {p : Bytes} :
    (s.didChange uri version changes).IsOpen p ↔ s.IsOpen p := by
  simp only [Server.IsOpen, Server.didChange, List.mem_map, exists_exists_and_eq_and]
  refine exists_congr fun pair => and_congr_right fun _ => ?_
  split_ifs
  · rw [applyChanges_path]
  · rfl

/-- A step that keeps the files keeps the cache fresh. -/
theorem Fresh.exec (h : Fresh embedded s) {a : Op} (henabled : (server embedded).enabled s a)
    (hkeeps : Keeps embedded s a) : Fresh embedded (s.exec embedded a) := by
  cases a with
  | didOpen uri text version =>
    refine ⟨fun pair hp => ?_, fun p buffer hb hopen => ?_⟩
    · rcases mem_openDocument hp with rfl | hp
      · rfl
      · exact h.paths pair hp
    · exact h.cache p buffer hb fun ho => hopen (IsOpen.openDocument h.paths ho _ _ _)
  | didChange uri version changes =>
    refine ⟨fun pair hp => ?_, fun p buffer hb hopen => ?_⟩
    · obtain ⟨old, ho, rfl⟩ := List.mem_map.mp hp
      split_ifs with huri
      · rw [applyChanges_path, ← huri]
        exact h.paths old ho
      · exact h.paths old ho
    · exact h.cache p buffer hb fun ho => hopen (isOpen_didChange.mpr ho)
  | didSave uri => exact h
  | didClose uri =>
    refine ⟨fun pair hp => h.paths pair (List.mem_of_mem_filter hp), fun p buffer hb hopen => ?_⟩
    by_cases ho : s.IsOpen p
    · exact hkeeps p buffer hb ho hopen
    · exact h.cache p buffer hb ho
  | files disk =>
    refine ⟨h.paths, fun p buffer hb hopen => ?_⟩
    have hsome : (s.cachedFiles p).isSome := Option.isSome_of_eq_some hb
    exact (h.cache p buffer hb hopen).trans (hkeeps p hsome hopen).symm
  | read walk name =>
    show Fresh embedded (Lsp.readSource embedded walk s name).2
    rcases readSource_cases walk name with ⟨pair, -, -, hr⟩ | ⟨hnone, hr⟩
    · rw [hr]
      exact h
    rcases hr with ⟨buffer, -, hr⟩ | ⟨hc, -, hr | ⟨content, hread, hr⟩⟩
    · rw [hr]
      exact h
    · rw [hr]
      exact h
    -- The file goes to the cache.
    rw [hr]
    refine ⟨h.paths, fun p buffer hb hopen => ?_⟩
    have hwalk : walk.Perm s.documents := henabled
    have hclosed : ¬ s.IsOpen (fsPath name) ∧ ¬ s.IsOpen name := by
      constructor
      · rintro ⟨pair, hp, hpath⟩
        exact hnone pair (hwalk.mem_iff.mpr hp) (.inl hpath)
      · rintro ⟨pair, hp, hpath⟩
        exact hnone pair (hwalk.mem_iff.mpr hp) (.inr hpath)
    by_cases hp : p = fsPath name
    · subst hp
      obtain rfl : CompressedFileBuffer.setText content true = buffer := by
        simpa [Server.cacheFile] using hb
      rw [getText_setText (hkeeps content hread hc hclosed.1 hclosed.2)]
      exact hread.symm
    · refine h.cache p buffer ?_ hopen
      simpa [Server.cacheFile, Function.update_of_ne hp] using hb

end Server

/-- The file `a` has one letter, and there is no other file. -/
def sampleDisk (letter : UInt8) : Disk := fun p => if p = [97] then some [letter] else none

/-- A server that starts with that file. -/
def sampleServer : Server := ⟨[], fun _ => none, sampleDisk 120⟩

/-- The file `a` is read, the client opens and changes it, it changes on the disk, and it gets its
old text again before it is closed. -/
def sampleOps : List Op :=
  [.read [] [97], .didOpen [97] [121] 1, .didChange [97] 2 [⟨none, some [122]⟩],
    .files (sampleDisk 122), .files (sampleDisk 120), .didClose [97]]

theorem sampleOps_allowed :
    (server fun _ => none).Allowed (Keeps fun _ => none) sampleServer sampleOps := by
  have hcached : ∀ p, ((sampleServer.cacheFile [97] [120]).cachedFiles p).isSome → p = [97] := by
    intro p hp
    by_contra hne
    simp [Server.cacheFile, Function.update_of_ne hne, sampleServer] at hp
  refine ⟨List.Perm.refl [], ?_, trivial, trivial, trivial, trivial, trivial, ?_, trivial, ?_, trivial,
    ?_, trivial⟩
  · intro content hread _ _ _ hlong
    obtain rfl : [120] = content := Option.some.inj hread
    exact absurd hlong (by decide)
  · intro p hp hopen
    obtain rfl := hcached p hp
    exact absurd ⟨_, List.mem_cons_self, rfl⟩ hopen
  · intro p hp hopen
    obtain rfl := hcached p hp
    exact absurd ⟨_, List.mem_cons_self, rfl⟩ hopen
  · intro p buffer hb _ _
    obtain rfl := hcached p (Option.isSome_of_eq_some hb)
    obtain rfl : CompressedFileBuffer.setText [120] true = buffer := Option.some.inj hb
    rfl

end Lsp

end Jaci
