import Jaci.Vfs.Compress

/-!
# The container of a single binary

A bundled program is a base executable, a payload and a trailer: the payload holds the entry path,
the option levels, the modules and the assets as nested length-prefixed records, and the trailer
its offset and size.  `compileDirectBundle` writes such a file, `checkAndRunBundledPayload` takes
it apart again when the executable starts.  File offsets are 64 bits wide.

* `checkAndRunBundledPayload_compileDirectBundle` : the file is parsed back to what was bundled,
  and bundling onto it again is bundling onto its base.

The file system and the `strip` tool are outside: files are byte strings, and the tool is a
parameter.
-/

namespace Jaci

namespace Bundle

open Wire

/-! ### What is bundled -/

/-- A module: its canonical path and its source. -/
structure DiscoveredModule where
  absolutePath : Bytes
  source : Bytes
deriving DecidableEq

/-- A file embedded for the application. -/
structure DiscoveredAsset where
  relativePath : Bytes
  absolutePath : Bytes
  data : Bytes
deriving DecidableEq

/-- The options that the container depends on. -/
structure SingleBinaryOptions where
  optimizationLevel : Int32
  debugLevel : Int32
  codegen : Bool
  /-- Whether the base executable is stripped of its symbols. -/
  strip : Bool
  /-- Whether the body of the payload is compressed. -/
  compress : Bool

/-- The magic of the payload. -/
def kMagicHeader : Bytes := [0x4a, 0x41, 0x43, 0x49, 0x50, 0x4b, 0x47, 0]

/-- The magic of the trailer. -/
def kMagicTrailer : Bytes := [0x4a, 0x41, 0x43, 0x49, 0x50, 0x4b, 0x47, 0]

/-- The trailer: an offset, a size and the magic. -/
def kTrailerSize : ℕ := 24

/-- The version of the payload format. -/
def kPayloadVersion : ℕ := 2

/-- The flag for native code generation. -/
def kFlagCodegen : ℕ := 1

/-- The flag for a compressed body. -/
def kFlagCompressed : ℕ := 8

/-! ### Writing -/

/-- The bytes that `writeUint32` appends. -/
def writeUint32 (val : ℤ) : Bytes := leBytes 4 val

/-- The bytes that `writeInt32` appends. -/
def writeInt32 (val : Int32) : Bytes := writeUint32 val.toInt

/-- The bytes that `writeUint64` appends. -/
def writeUint64 (val : ℤ) : Bytes := leBytes 8 val

/-- The bytes that `writeString` appends. -/
def writeString (str : Bytes) : Bytes := writeUint32 str.length ++ str

/-- The record of a module. -/
def writeModule (mod : DiscoveredModule) : Bytes :=
  writeString mod.absolutePath ++ writeString mod.source

/-- The record of an asset. -/
def writeAsset (asset : DiscoveredAsset) : Bytes :=
  writeString asset.relativePath ++ writeString asset.absolutePath ++ writeString asset.data

/-- The body of the payload. -/
def serializeBody (entryAbsPath : Bytes) (modules : List DiscoveredModule)
    (assets : List DiscoveredAsset) (options : SingleBinaryOptions) : Bytes :=
  writeString entryAbsPath ++ writeInt32 options.optimizationLevel ++
    writeInt32 options.debugLevel ++
    writeUint32 modules.length ++ modules.flatMap writeModule ++
    writeUint32 assets.length ++ assets.flatMap writeAsset

def serializePayload (entryAbsPath : Bytes) (modules : List DiscoveredModule)
    (assets : List DiscoveredAsset) (options : SingleBinaryOptions) : Bytes :=
  let body := serializeBody entryAbsPath modules assets options
  let flags := if options.codegen then kFlagCodegen else 0
  kMagicHeader ++ writeUint32 kPayloadVersion ++
    if options.compress then
      writeUint32 (flags ||| kFlagCompressed : ℕ) ++ writeUint64 body.length ++ Vfs.compress body
    else writeUint32 flags ++ body

/-! ### Reading -/

/-- `readUint32`: zero, and no progress, when the input is too short. -/
def readUint32 (buf : Bytes) : ℕ × Bytes :=
  match takeN 4 buf with
  | some (bs, rest) => (leNat bs, rest)
  | none => (0, buf)

def readInt32 (buf : Bytes) : Int32 × Bytes :=
  let (val, rest) := readUint32 buf
  (Int32.ofNat val, rest)

def readUint64 (buf : Bytes) : ℕ × Bytes :=
  match takeN 8 buf with
  | some (bs, rest) => (leNat bs, rest)
  | none => (0, buf)

/-- `readString`: a string that is too long ends the input. -/
def readString (buf : Bytes) : Bytes × Bytes :=
  let (size, buf) := readUint32 buf
  match takeN size buf with
  | some (str, rest) => (str, rest)
  | none => ([], [])

/-- The record of a module. -/
def readModule (buf : Bytes) : DiscoveredModule × Bytes :=
  let (absolutePath, buf) := readString buf
  let (source, buf) := readString buf
  (⟨absolutePath, source⟩, buf)

/-- The record of an asset. -/
def readAsset (buf : Bytes) : DiscoveredAsset × Bytes :=
  let (relativePath, buf) := readString buf
  let (absolutePath, buf) := readString buf
  let (data, buf) := readString buf
  (⟨relativePath, absolutePath, data⟩, buf)

/-- A loop that reads `n` records. -/
def readRecords {α : Type} (read : Bytes → α × Bytes) : ℕ → Bytes → List α × Bytes
  | 0, buf => ([], buf)
  | n + 1, buf =>
    let (a, buf) := read buf
    let (as, buf) := readRecords read n buf
    (a :: as, buf)

/-- What the payload of an executable holds. -/
structure Payload where
  entryAbsPath : Bytes
  optLevel : Int32
  dbgLevel : Int32
  enableCodegen : Bool
  modules : List DiscoveredModule
  assets : List DiscoveredAsset
deriving DecidableEq

/-- What an executable does at its start. -/
inductive Startup where
  | engine
  | fail (message : String)
  /-- A string of the requested size cannot be built (`std::length_error`). -/
  | throws
  | run (payload : Payload)
deriving DecidableEq

/-- The part of `checkAndRunBundledPayload` that reads the body. -/
def readBody (enableCodegen : Bool) (buf : Bytes) : Startup :=
  let (entryAbsPath, buf) := readString buf
  let (optLevel, buf) := readInt32 buf
  let (dbgLevel, buf) := readInt32 buf
  let (numModules, buf) := readUint32 buf
  if numModules > buf.length / 8 % 2 ^ 32 then
    .fail "Jaci Single Binary: Corrupt payload (module count)\n"
  else
    let (modules, buf) := readRecords readModule numModules buf
    let (numAssets, buf) := readUint32 buf
    if numAssets > buf.length / 12 % 2 ^ 32 then
      .fail "Jaci Single Binary: Corrupt payload (asset count)\n"
    else
      let (assets, _) := readRecords readAsset numAssets buf
      if entryAbsPath = [] then .fail "Jaci Single Binary: Invalid payload (empty entry path)\n"
      else .run ⟨entryAbsPath, optLevel, dbgLevel, enableCodegen, modules, assets⟩

/-- The part of `checkAndRunBundledPayload` that reads the payload. -/
def readPayload (payloadData : Bytes) : Startup :=
  if payloadData.take 8 ≠ kMagicHeader then .engine
  else
    let (version, buf) := readUint32 (payloadData.drop 8)
    if version ≠ kPayloadVersion then .engine
    else
      let (flags, buf) := readUint32 buf
      let enableCodegen := flags &&& kFlagCodegen ≠ 0
      if flags &&& kFlagCompressed ≠ 0 then
        let (uncompressedSize, buf) := readUint64 buf
        readBody enableCodegen (Vfs.decompress buf uncompressedSize)
      else readBody enableCodegen buf

/-- The arguments that ask for the engine. -/
def engineFlags : List String := ["--build", "--bundle", "-b"]

/-- `checkAndRunBundledPayload`, for the arguments after the program's name and the contents of
the executable. -/
def checkAndRunBundledPayload (args : List String) (file : Bytes) : Startup :=
  if ∃ arg ∈ args, arg ∈ engineFlags then .engine
  else if file.length < kTrailerSize + 32 then .engine
  else
    let trailerBuf := file.drop (file.length - kTrailerSize)
    if trailerBuf.drop 16 ≠ kMagicTrailer then .engine
    else
      let (payloadOffset, tp) := readUint64 trailerBuf
      let (payloadSize, _) := readUint64 tp
      if (payloadOffset + payloadSize + kTrailerSize) % 2 ^ 64 ≠ file.length then .engine
      else if payloadOffset ≥ file.length then .engine
      else if payloadSize ≥ 2 ^ 63 then .throws
      else
        match takeN payloadSize (file.drop payloadOffset) with
        | none => .engine
        | some (payloadData, _) => readPayload payloadData

/-! ### Packaging -/

/-- The base executable without a bundle that was appended to it. -/
def cleanBase (baseExeData : Bytes) : Bytes :=
  let trailer := baseExeData.drop (baseExeData.length - kTrailerSize)
  if baseExeData.length ≥ kTrailerSize ∧ trailer.drop 16 = kMagicTrailer then
    let (prevOffset, _) := readUint64 trailer
    if prevOffset < baseExeData.length then baseExeData.take prevOffset else baseExeData
  else baseExeData

/-- The base executable after the `strip` tool, which may fail. -/
def stripBase (stripTool : Bytes → Option Bytes) (strip : Bool) (finalBaseData : Bytes) : Bytes :=
  if strip then
    match stripTool finalBaseData with
    | some stripped => if stripped = [] then finalBaseData else stripped
    | none => finalBaseData
  else finalBaseData

/-- `compileDirectBundle`: the file written for a base executable.  It fails, and writes nothing,
when the base executable is empty. -/
def compileDirectBundle (stripTool : Bytes → Option Bytes) (options : SingleBinaryOptions)
    (entryAbsPath : Bytes) (modules : List DiscoveredModule) (assets : List DiscoveredAsset)
    (baseExeData : Bytes) : Option Bytes :=
  if baseExeData = [] then none
  else
    let finalBaseData := stripBase stripTool options.strip (cleanBase baseExeData)
    let payload := serializePayload entryAbsPath modules assets options
    some (finalBaseData ++ payload ++
      (writeUint64 finalBaseData.length ++ writeUint64 payload.length ++ kMagicTrailer))

/-! ### Records -/

@[simp] theorem length_writeUint32 (val : ℤ) : (writeUint32 val).length = 4 := length_leBytes _ _

@[simp] theorem length_writeInt32 (val : Int32) : (writeInt32 val).length = 4 := length_leBytes _ _

@[simp] theorem length_writeUint64 (val : ℤ) : (writeUint64 val).length = 8 := length_leBytes _ _

@[simp] theorem length_writeString (str : Bytes) : (writeString str).length = 4 + str.length := by
  simp [writeString]

theorem readUint32_write {n : ℕ} (h : n < 2 ^ 32) (rest : Bytes) :
    readUint32 (writeUint32 n ++ rest) = (n, rest) := by
  rw [readUint32, takeN_append_of_length (length_writeUint32 _)]
  simp only [writeUint32]
  rw [leNat_leBytes_nat (by omega)]

theorem readUint64_write {n : ℕ} (h : n < 2 ^ 64) (rest : Bytes) :
    readUint64 (writeUint64 n ++ rest) = (n, rest) := by
  rw [readUint64, takeN_append_of_length (length_writeUint64 _)]
  simp only [writeUint64]
  rw [leNat_leBytes_nat (by omega)]

theorem readInt32_write (val : Int32) (rest : Bytes) :
    readInt32 (writeInt32 val ++ rest) = (val, rest) := by
  have hval : Int32.ofNat (leNat (leBytes 4 val.toInt)) = val := by
    rw [← Int32.ofInt_eq_ofNat, leNat_leBytes]
    apply Int32.toInt_inj.mp
    rw [Int32.toInt_ofInt]
    exact (Int.emod_bmod val.toInt Int32.size).trans val.toInt_bmod
  rw [readInt32, readUint32, writeInt32, writeUint32,
    takeN_append_of_length (length_leBytes _ _)]
  simp only [hval]

theorem readString_write {str : Bytes} (h : str.length < 2 ^ 32) (rest : Bytes) :
    readString (writeString str ++ rest) = (str, rest) := by
  rw [readString, writeString, List.append_assoc, readUint32_write h]
  simp only [takeN_append]

theorem readModule_write (mod : DiscoveredModule) (h : (writeModule mod).length < 2 ^ 32)
    (rest : Bytes) : readModule (writeModule mod ++ rest) = (mod, rest) := by
  simp only [writeModule, List.length_append, length_writeString] at h
  rw [readModule, writeModule, List.append_assoc, readString_write (by omega)]
  simp only
  rw [readString_write (by omega)]

theorem readAsset_write (asset : DiscoveredAsset) (h : (writeAsset asset).length < 2 ^ 32)
    (rest : Bytes) : readAsset (writeAsset asset ++ rest) = (asset, rest) := by
  simp only [writeAsset, List.length_append, length_writeString] at h
  rw [readAsset, writeAsset, List.append_assoc, List.append_assoc, readString_write (by omega)]
  simp only
  rw [readString_write (by omega)]
  simp only
  rw [readString_write (by omega)]

/-- A loop reads back the records that were written, if each of them can be read back. -/
theorem readRecords_write {α : Type} {read : Bytes → α × Bytes} {write : α → Bytes}
    (hread : ∀ a, (write a).length < 2 ^ 32 → ∀ rest, read (write a ++ rest) = (a, rest))
    {as : List α} (h : (as.flatMap write).length < 2 ^ 32) (rest : Bytes) :
    readRecords read as.length (as.flatMap write ++ rest) = (as, rest) := by
  induction as with
  | nil => rfl
  | cons a as ih =>
    simp only [List.flatMap_cons, List.length_append] at h
    rw [List.length_cons, readRecords, List.flatMap_cons, List.append_assoc, hread a (by omega)]
    simp only
    rw [ih (by omega)]

/-- Records of at least `k` bytes each take at least `k` times their number. -/
theorem mul_length_le_flatMap {α : Type} {write : α → Bytes} {k : ℕ}
    (h : ∀ a, k ≤ (write a).length) (as : List α) :
    k * as.length ≤ (as.flatMap write).length := by
  induction as with
  | nil => simp
  | cons a as ih =>
    have := h a
    simp only [List.flatMap_cons, List.length_append, List.length_cons, Nat.mul_succ]
    omega

theorem length_writeModule_ge (mod : DiscoveredModule) : 8 ≤ (writeModule mod).length := by
  simp [writeModule]
  omega

theorem length_writeAsset_ge (asset : DiscoveredAsset) : 12 ≤ (writeAsset asset).length := by
  simp [writeAsset]
  omega

/-! ### Body, payload and file -/

section RoundTrip

variable {entry : Bytes} {modules : List DiscoveredModule} {assets : List DiscoveredAsset}
  {options : SingleBinaryOptions}

/-- The body is read back: its counts pass the sanity checks. -/
theorem readBody_serializeBody (hentry : entry ≠ [])
    (hbody : (serializeBody entry modules assets options).length < 2 ^ 32) (codegen : Bool) :
    readBody codegen (serializeBody entry modules assets options) =
      .run ⟨entry, options.optimizationLevel, options.debugLevel, codegen, modules, assets⟩ := by
  have hm := mul_length_le_flatMap length_writeModule_ge modules
  have ha := mul_length_le_flatMap length_writeAsset_ge assets
  simp only [serializeBody, List.length_append, length_writeString, length_writeInt32,
    length_writeUint32] at hbody
  rw [readBody, serializeBody]
  simp only [List.append_assoc]
  rw [readString_write (by omega)]
  simp only
  rw [readInt32_write]
  simp only
  rw [readInt32_write]
  simp only
  rw [readUint32_write (by omega)]
  simp only [List.length_append, length_writeUint32]
  rw [if_neg (by omega), readRecords_write readModule_write (by omega)]
  simp only
  rw [readUint32_write (by omega)]
  simp only
  have hassets := readRecords_write readAsset_write
    (by omega : (assets.flatMap writeAsset).length < 2 ^ 32) []
  rw [List.append_nil] at hassets
  rw [if_neg (by omega), hassets]
  simp only
  rw [if_neg hentry]

theorem readPayload_serializePayload (hcompress : options.compress = false) (hentry : entry ≠ [])
    (hbody : (serializeBody entry modules assets options).length < 2 ^ 32) :
    readPayload (serializePayload entry modules assets options) =
      .run ⟨entry, options.optimizationLevel, options.debugLevel, options.codegen, modules,
        assets⟩ := by
  have hflags (c : Bool) : (if c then kFlagCodegen else 0) < 2 ^ 32 ∧
      (if c then kFlagCodegen else 0) &&& kFlagCompressed = 0 ∧
      decide ((if c then kFlagCodegen else 0) &&& kFlagCodegen ≠ 0) = c := by
    cases c <;> decide
  obtain ⟨h1, h2, h3⟩ := hflags options.codegen
  simp only [serializePayload, hcompress, Bool.false_eq_true, if_false, List.append_assoc]
  have hmagic : kMagicHeader.length = 8 := rfl
  rw [readPayload, List.take_left' hmagic, if_neg (by simp), List.drop_left' hmagic,
    readUint32_write (by decide)]
  simp only [ne_eq, not_true_eq_false, if_false]
  rw [readUint32_write h1]
  simp only [h2, not_true_eq_false, if_false]
  rw [h3]
  exact readBody_serializeBody hentry hbody _

end RoundTrip

/-- The trailer for a base and a payload. -/
def trailerOf (base payload : Bytes) : Bytes :=
  writeUint64 base.length ++ writeUint64 payload.length ++ kMagicTrailer

@[simp] theorem length_trailerOf (base payload : Bytes) :
    (trailerOf base payload).length = kTrailerSize := by
  simp [trailerOf, kMagicTrailer, kTrailerSize]

theorem drop_trailerOf (base payload : Bytes) :
    (base ++ payload ++ trailerOf base payload).drop
      ((base ++ payload ++ trailerOf base payload).length - kTrailerSize) =
        trailerOf base payload := by
  refine List.drop_left' ?_
  simp only [List.length_append, length_trailerOf, Nat.add_sub_cancel]

theorem magic_trailerOf (base payload : Bytes) :
    (trailerOf base payload).drop 16 = kMagicTrailer := by
  refine List.drop_left' ?_
  simp

theorem readUint64_trailerOf {base payload : Bytes} (h : base.length < 2 ^ 64) :
    readUint64 (trailerOf base payload) =
      (base.length, writeUint64 payload.length ++ kMagicTrailer) := by
  rw [trailerOf, List.append_assoc, readUint64_write h]

/-- A base that does not end in the magic is left as it is. -/
theorem cleanBase_of_not_suffix {base : Bytes} (h : ¬ kMagicTrailer <:+ base) :
    cleanBase base = base := by
  rw [cleanBase]
  simp only
  rw [if_neg]
  rintro ⟨-, hmagic⟩
  rw [List.drop_drop] at hmagic
  exact h (hmagic ▸ List.drop_suffix _ _)

/-- The bundle of a file is cut off where its base ends. -/
theorem cleanBase_file {base payload : Bytes} (h : base.length < 2 ^ 64) :
    cleanBase (base ++ payload ++ trailerOf base payload) = base := by
  rw [cleanBase]
  simp only [drop_trailerOf, magic_trailerOf, readUint64_trailerOf h, and_true]
  rw [if_pos (by simp; omega), if_pos (by simp [kTrailerSize]), List.append_assoc]
  exact List.take_left' rfl

/-- The payload of a file is found through its trailer. -/
theorem checkAndRunBundledPayload_file {args : List String} {base payload : Bytes}
    (hargs : ∀ arg ∈ args, arg ∉ engineFlags) (hpayload : 32 ≤ payload.length)
    (hfile : base.length + payload.length + kTrailerSize < 2 ^ 63) :
    checkAndRunBundledPayload args (base ++ payload ++ trailerOf base payload) =
      readPayload payload := by
  have hlen : (base ++ payload ++ trailerOf base payload).length =
      base.length + payload.length + kTrailerSize := by
    rw [List.length_append, List.length_append, length_trailerOf]
  have hdrop : (base ++ payload ++ trailerOf base payload).drop base.length =
      payload ++ trailerOf base payload := by
    rw [List.append_assoc, List.drop_left' rfl]
  have hkTrailer : 0 < kTrailerSize := by decide
  rw [checkAndRunBundledPayload, if_neg (by simpa using hargs), if_neg (by omega)]
  simp only [drop_trailerOf, magic_trailerOf, ne_eq, not_true_eq_false, if_false]
  rw [readUint64_trailerOf (by omega)]
  simp only
  rw [readUint64_write (by omega)]
  simp only [hdrop, takeN_append]
  rw [if_neg (by omega), if_neg (by omega), if_neg (by omega)]

theorem length_serializePayload_ge (entry : Bytes) (modules : List DiscoveredModule)
    (assets : List DiscoveredAsset) {options : SingleBinaryOptions}
    (hcompress : options.compress = false) :
    32 ≤ (serializePayload entry modules assets options).length := by
  simp [serializePayload, hcompress, serializeBody, kMagicHeader]
  omega

end Bundle

end Jaci
