import Mathlib.Data.List.Basic
import Mathlib.Data.List.DropRight

/-!
# Updating the cached disk image

`lionos update` fetches a disk image and its checksums, compares the two and writes the
image into the cache. The fetches, the directory and the write may fail; the write
truncates the file before it writes.
-/

namespace LionOS.Launcher

/-- The characters with the Unicode property `White_Space`. -/
def isWhitespace (c : Char) : Bool :=
  let n := c.toNat
  (0x09 ≤ n && n ≤ 0x0D) || n == 0x20 || n == 0x85 || n == 0xA0 || n == 0x1680 ||
    (0x2000 ≤ n && n ≤ 0x200A) || n == 0x2028 || n == 0x2029 || n == 0x202F || n == 0x205F ||
    n == 0x3000

/-- A line that ended in a line feed loses the carriage return in front of it. -/
def stripCr (line : List Char) : List Char :=
  if line.getLast? = some '\r' then line.dropLast else line

/-- `str::lines`. What follows the last line feed is a line only if it is not empty. -/
def lines (text : String) : List String :=
  let pieces := text.toList.splitOn '\n'
  let rest := pieces.getLastD []
  (pieces.dropLast.map stripCr ++ if rest.isEmpty then [] else [rest]).map String.ofList

/-- `str::split_whitespace`. -/
def splitWhitespace (line : String) : List String :=
  ((line.toList.splitOnP isWhitespace).filter fun w => !w.isEmpty).map String.ofList

/-- `str::trim`. -/
def trim (word : String) : String :=
  String.ofList ((word.toList.dropWhile isWhitespace).rdropWhile isWhitespace)

/-- `str::eq_ignore_ascii_case`. -/
def eqIgnoreAsciiCase (a b : String) : Bool :=
  a.toList.map Char.toLower == b.toList.map Char.toLower

/-- The bytes of a file. -/
abbrev Bytes := List UInt8

def diskName : String := "lionos-disk.bin"

def checksumsName : String := "checksums.txt"

/-- The file name and the hash of a line that has both. -/
def entry (line : String) : Option (String × String) :=
  match splitWhitespace line with
  | hash :: file :: _ => some (file, hash)
  | _ => none

/-- The hash of the first entry that names the file. -/
def expectedHash (checksumsText name : String) : Option String :=
  (((lines checksumsText).filterMap entry).find? fun e => e.1 == name).map (·.2)

section

variable (sha256Hex : Bytes → String)

/-- Check that the SHA-256 of `disk` is the one `checksums.txt` has for `name`. -/
def verify (disk : Bytes) (checksumsText name : String) : Except String Unit :=
  match expectedHash checksumsText name with
  | none => .error ("no SHA-256 entry for " ++ name ++ " in " ++ checksumsName)
  | some expected =>
    let actual := sha256Hex disk
    if eqIgnoreAsciiCase actual (trim expected) then .ok ()
    else
      .error ("SHA-256 mismatch for " ++ name ++ ": expected " ++ expected ++ ", got " ++ actual ++
        " — refusing to use the image")

/-- How a write of a whole file ends: done, failed before the file was truncated, or failed
after some bytes. -/
inductive WriteOutcome where
  | done
  | notOpened (e : String)
  | stopped (written : Nat) (e : String)
  deriving DecidableEq, Repr

/-- `fs::write` on a file with the given contents, if it is there. -/
def fsWrite (file : Option Bytes) (contents : Bytes) :
    WriteOutcome → Option Bytes × Except String Unit
  | .done => (some contents, .ok ())
  | .notOpened e => (file, .error e)
  | .stopped written e => (some (contents.take written), .error e)

/-- What one call meets: the two fetches, the directory, the write, and how the two paths
are displayed. -/
structure Env where
  disk : Except String Bytes
  checksums : Except String Bytes
  createDir : Except String Unit
  write : WriteOutcome
  outDir : String
  out : String

/-- `str::from_utf8`. -/
def decodeUtf8 (bytes : Bytes) : Option String := String.fromUTF8? ⟨bytes.toArray⟩

/-- Download, verify and cache. The cached file goes in and comes out. -/
def run (env : Env) (cache : Option Bytes) : Option Bytes × Except String Unit :=
  match env.disk with
  | .error e => (cache, .error e)
  | .ok disk =>
    match env.checksums with
    | .error e => (cache, .error e)
    | .ok checksums =>
      match decodeUtf8 checksums with
      | none => (cache, .error (checksumsName ++ " is not valid UTF-8"))
      | some checksumsText =>
        match verify sha256Hex disk checksumsText diskName with
        | .error e => (cache, .error e)
        | .ok () =>
          match env.createDir with
          | .error e => (cache, .error ("cannot create cache " ++ env.outDir ++ ": " ++ e))
          | .ok () =>
            let r := fsWrite cache disk env.write
            (r.1, r.2.mapError fun e => "cannot write " ++ env.out ++ ": " ++ e)

/-- Both files arrived, and the checksums are text. -/
def Env.Fetched (env : Env) (disk : Bytes) (checksumsText : String) : Prop :=
  env.disk = .ok disk ∧
    ∃ checksums, env.checksums = .ok checksums ∧ decodeUtf8 checksums = some checksumsText

/-- Two fetches of one call are the same. -/
theorem Env.Fetched.unique {env : Env} {disk disk' : Bytes} {text text' : String}
    (h : env.Fetched disk text) (h' : env.Fetched disk' text') : disk = disk' ∧ text = text' := by
  obtain ⟨hd, b, hb, ht⟩ := h
  obtain ⟨hd', b', hb', ht'⟩ := h'
  obtain rfl := Except.ok.inj (hb.symm.trans hb')
  exact ⟨Except.ok.inj (hd.symm.trans hd'), Option.some.inj (ht.symm.trans ht')⟩

variable {sha256Hex}

/-- A call that comes to the write does what the write does. -/
theorem run_of_verified {env : Env} {cache : Option Bytes} {disk : Bytes} {text : String}
    (hfetched : env.Fetched disk text) (hverify : verify sha256Hex disk text diskName = .ok ())
    (hdir : env.createDir = .ok ()) :
    run sha256Hex env cache =
      ((fsWrite cache disk env.write).1,
        (fsWrite cache disk env.write).2.mapError
          fun e => "cannot write " ++ env.out ++ ": " ++ e) := by
  obtain ⟨hdisk, checksums, hsums, htext⟩ := hfetched
  simp only [run, hdisk, hsums, htext, hverify, hdir]

/-- A call fails with the cache untouched, or it comes to the write with a verified
image. -/
theorem run_cases (sha256Hex : Bytes → String) (env : Env) (cache : Option Bytes) :
    (∃ e, run sha256Hex env cache = (cache, .error e) ∧
      ∀ disk text, env.Fetched disk text → verify sha256Hex disk text diskName = .ok () →
        env.createDir ≠ .ok ()) ∨
      ∃ disk text, env.Fetched disk text ∧ verify sha256Hex disk text diskName = .ok () ∧
        env.createDir = .ok () := by
  unfold run
  cases hdisk : env.disk with
  | error e => exact .inl ⟨e, rfl, fun _ _ h => by simp [Env.Fetched, hdisk] at h⟩
  | ok disk =>
    cases hsums : env.checksums with
    | error e => exact .inl ⟨e, rfl, fun _ _ h => by simp [Env.Fetched, hsums] at h⟩
    | ok checksums =>
      dsimp only
      cases htext : decodeUtf8 checksums with
      | none => exact .inl ⟨_, rfl, fun _ _ h => by simp [Env.Fetched, hsums, htext] at h⟩
      | some text =>
        have hfetched : env.Fetched disk text := ⟨hdisk, checksums, hsums, htext⟩
        dsimp only
        cases hverify : verify sha256Hex disk text diskName with
        | error e =>
          refine .inl ⟨e, rfl, fun disk' text' hfetched' hok => ?_⟩
          obtain ⟨rfl, rfl⟩ := hfetched.unique hfetched'
          rw [hverify] at hok
          cases hok
        | ok u =>
          cases hdir : env.createDir with
          | error e => exact .inl ⟨_, rfl, fun _ _ _ _ h => by cases h⟩
          | ok u => exact .inr ⟨disk, text, hfetched, hverify, rfl⟩

/-- The pieces of a text around a class of characters have none of them. -/
theorem not_of_mem_splitOnP {α : Type*} {p : α → Bool} {xs w : List α} (h : w ∈ xs.splitOnP p) :
    ∀ c ∈ w, p c = false := by
  induction xs generalizing w with
  | nil =>
    rw [List.splitOnP_nil, List.mem_singleton] at h
    simp [h]
  | cons x xs ih =>
    rw [List.splitOnP_cons_eq_if_modifyHead] at h
    split at h
    · rcases List.mem_cons.mp h with rfl | h
      · simp
      · exact ih h
    next hx =>
    cases hs : xs.splitOnP p with
    | nil => exact absurd hs (List.splitOnP_ne_nil p xs)
    | cons v vs =>
      rw [hs, List.modifyHead_cons] at h
      rcases List.mem_cons.mp h with rfl | h
      · intro c hc
        rcases List.mem_cons.mp hc with rfl | hc
        · exact eq_false_of_ne_true hx
        · exact ih (hs ▸ List.mem_cons_self) c hc
      · exact ih (hs ▸ List.mem_cons_of_mem v h)

private theorem trim_eq_self {word : String} (h : ∀ c ∈ word.toList, isWhitespace c = false) :
    trim word = word := by
  have hfront : word.toList.dropWhile isWhitespace = word.toList := by
    refine List.dropWhile_eq_self_iff.mpr fun hl => ?_
    simp [h _ (List.getElem_mem hl)]
  have hback : word.toList.rdropWhile isWhitespace = word.toList := by
    refine List.rdropWhile_eq_self_iff.mpr fun hl => ?_
    simp [h _ (List.getLast_mem hl)]
  rw [trim, hfront, hback, String.ofList_toList]

/-- The hash of an entry is a word of its line, so that trimming it changes nothing. -/
theorem trim_expectedHash {text name hash : String} (h : expectedHash text name = some hash) :
    trim hash = hash := by
  obtain ⟨e, hfind, rfl⟩ := Option.map_eq_some_iff.mp h
  obtain ⟨line, -, hentry⟩ := List.mem_filterMap.mp (List.mem_of_find?_eq_some hfind)
  unfold entry at hentry
  split at hentry
  next hash file rest hwords =>
    obtain rfl := Option.some.inj hentry
    have hmem : hash ∈ splitWhitespace line := by simp [hwords]
    obtain ⟨w, hw, rfl⟩ := List.mem_map.mp hmem
    refine trim_eq_self fun c hc => ?_
    rw [String.toList_ofList] at hc
    exact not_of_mem_splitOnP (List.mem_filter.mp hw).1 c hc
  · cases hentry

/-- An image is accepted where its hash is the first one listed for its name, up to the
case of letters. -/
theorem verify_eq_ok_iff {disk : Bytes} {text name : String} :
    verify sha256Hex disk text name = .ok () ↔
      ∃ hash, expectedHash text name = some hash ∧
        eqIgnoreAsciiCase (sha256Hex disk) hash = true := by
  unfold verify
  cases h : expectedHash text name with
  | none => simp
  | some hash =>
    dsimp only
    rw [trim_expectedHash h]
    split <;> simp_all

variable (sha256Hex)

/-- A call that fails leaves the cached file as it was; one that returns leaves the fetched
image, whose hash is the first one listed for it. -/
def Sound (env : Env) (cache : Option Bytes) : Prop :=
  match run sha256Hex env cache with
  | (after, .error _) => after = cache
  | (after, .ok ()) =>
    ∃ disk text hash, env.Fetched disk text ∧ after = some disk ∧
      expectedHash text diskName = some hash ∧ eqIgnoreAsciiCase (sha256Hex disk) hash = true

/-- The write of a verified image does not stop part of the way, unless at the very bytes
the cache already holds. -/
def WriteKeeps (env : Env) (cache : Option Bytes) : Prop :=
  ∀ disk text written e, env.Fetched disk text → verify sha256Hex disk text diskName = .ok () →
    env.createDir = .ok () → env.write = .stopped written e → cache = some (disk.take written)

/-- The cached file is not there or some checksums name its hash. -/
def Verified (cache : Option Bytes) : Prop :=
  ∀ image, cache = some image → ∃ text, verify sha256Hex image text diskName = .ok ()

/-- The cached file after a sequence of calls. -/
def cacheAfter (cache : Option Bytes) (envs : List Env) : Option Bytes :=
  envs.foldl (fun cache env => (run sha256Hex env cache).1) cache

variable {sha256Hex}

/-- One call. -/
theorem sound_iff (env : Env) (cache : Option Bytes) :
    Sound sha256Hex env cache ↔ WriteKeeps sha256Hex env cache := by
  obtain ⟨e, hrun, hnot⟩ | ⟨disk, text, hfetched, hverify, hdir⟩ :=
    run_cases sha256Hex env cache
  · -- The write is not reached.
    simp only [Sound, hrun, true_iff]
    intro disk text written e hfetched hverify hdir _
    exact absurd hdir (hnot disk text hfetched hverify)
  · have hkeeps : WriteKeeps sha256Hex env cache ↔
        ∀ written e, env.write = .stopped written e → cache = some (disk.take written) := by
      constructor
      · intro h written e hwrite
        exact h disk text written e hfetched hverify hdir hwrite
      · intro h disk' text' written e hfetched' _ _ hwrite
        obtain ⟨rfl, -⟩ := hfetched.unique hfetched'
        exact h written e hwrite
    rw [hkeeps, Sound, run_of_verified hfetched hverify hdir]
    cases hwrite : env.write with
    | done =>
      obtain ⟨hash, hhash, heq⟩ := verify_eq_ok_iff.mp hverify
      simp only [fsWrite, Except.mapError, reduceCtorEq, false_implies, implies_true, iff_true]
      exact ⟨disk, text, hash, hfetched, rfl, hhash, heq⟩
    | notOpened e => simp [fsWrite, Except.mapError]
    | stopped written e =>
      simp only [fsWrite, Except.mapError, WriteOutcome.stopped.injEq]
      constructor
      · rintro h _ _ ⟨rfl, rfl⟩
        exact h.symm
      · intro h
        exact (h written e ⟨rfl, rfl⟩).symm

theorem Verified.run {env : Env} {cache : Option Bytes} (h : Verified sha256Hex cache)
    (hsound : Sound sha256Hex env cache) : Verified sha256Hex (run sha256Hex env cache).1 := by
  unfold Sound at hsound
  split at hsound
  next after e hrun =>
    rw [hrun, hsound]
    exact h
  next after hrun =>
    obtain ⟨disk, text, hash, -, rfl, hhash, heq⟩ := hsound
    rw [hrun]
    intro image himage
    obtain rfl := Option.some.inj himage
    exact ⟨text, verify_eq_ok_iff.mpr ⟨hash, hhash, heq⟩⟩

/-- A run of sound calls keeps the cache verified. -/
theorem Verified.cacheAfter {cache : Option Bytes} {envs : List Env}
    (h : Verified sha256Hex cache)
    (hsound : ∀ before env after, envs = before ++ env :: after →
      Sound sha256Hex env (cacheAfter sha256Hex cache before)) :
    Verified sha256Hex (cacheAfter sha256Hex cache envs) := by
  induction envs generalizing cache with
  | nil => exact h
  | cons env envs ih =>
    refine ih (h.run (hsound [] env envs rfl)) fun before env' after heq => ?_
    exact hsound (env :: before) env' after (by rw [heq, List.cons_append])

/-- **When the cache only ever holds a verified image.** In every run of calls, from a cache
that is empty or verified: every call is sound and leaves a cache that is empty or
verified, if and only if no write of a verified image stops part of the way, unless at the
bytes that were there. -/
theorem runs_sound_iff {cache : Option Bytes} (hcache : Verified sha256Hex cache)
    (envs : List Env) :
    (∀ before env after, envs = before ++ env :: after →
      Sound sha256Hex env (cacheAfter sha256Hex cache before) ∧
        Verified sha256Hex (cacheAfter sha256Hex cache (before ++ [env]))) ↔
      ∀ before env after, envs = before ++ env :: after →
        WriteKeeps sha256Hex env (cacheAfter sha256Hex cache before) := by
  constructor
  · intro h before env after heq
    exact (sound_iff env _).mp (h before env after heq).1
  · intro h
    have hsound : ∀ before env after, envs = before ++ env :: after →
        Sound sha256Hex env (cacheAfter sha256Hex cache before) :=
      fun before env after heq => (sound_iff env _).mpr (h before env after heq)
    intro before env after heq
    refine ⟨hsound before env after heq, hcache.cacheAfter fun before' env' after' heq' => ?_⟩
    refine hsound before' env' (after' ++ after) ?_
    rw [heq, List.append_cons, heq']
    simp

end

/-- The digest of the image. -/
def sampleSha256Hex (data : Bytes) : String :=
  if data = [0x61] then "ca978112ca1bbdcafac231b39a23dc4da786eff8147c4e72b9807785afee48bb" else ""

/-- Its checksums, as `sha256sum` prints them. -/
def sampleChecksums : String := sampleSha256Hex [0x61] ++ "  lionos-disk.bin\n"

/-- A call that fetches the two. -/
def sampleEnv (write : WriteOutcome) : Env where
  disk := .ok [0x61]
  checksums := .ok sampleChecksums.toUTF8.data.toList
  createDir := .ok ()
  write := write
  outDir := "cache"
  out := "cache/lionos-disk.bin"

/-- Two updates from an empty cache, seen after the second one. -/
theorem runs_sound_iff_twice :
    Sound sampleSha256Hex (sampleEnv (.notOpened "permission denied"))
        (cacheAfter sampleSha256Hex none [sampleEnv .done]) ∧
      Verified sampleSha256Hex (cacheAfter sampleSha256Hex none
        [sampleEnv .done, sampleEnv (.notOpened "permission denied")]) := by
  have hempty : Verified sampleSha256Hex none := fun image h => by cases h
  have hkeeps : ∀ before env after,
      [sampleEnv .done, sampleEnv (.notOpened "permission denied")] = before ++ env :: after →
        WriteKeeps sampleSha256Hex env (cacheAfter sampleSha256Hex none before) := by
    intro before env after heq disk text written e _ _ _ hwrite
    have hmem : env ∈ [sampleEnv .done, sampleEnv (.notOpened "permission denied")] :=
      heq ▸ List.mem_append_right _ List.mem_cons_self
    rcases List.mem_cons.mp hmem with rfl | hmem
    · cases hwrite
    · obtain rfl := List.mem_singleton.mp hmem
      cases hwrite
  exact (runs_sound_iff hempty _).mpr hkeeps [sampleEnv .done] _ [] rfl

theorem decodeUtf8_toUTF8 (text : String) : decodeUtf8 text.toUTF8.data.toList = some text := by
  have h : (⟨text.toUTF8.data.toList.toArray⟩ : ByteArray) = text.toByteArray := by
    rw [Array.toArray_toList]
    rfl
  rw [decodeUtf8, h, String.fromUTF8?, dif_pos text.isValidUTF8]
  rfl

theorem verify_sample : verify sampleSha256Hex [0x61] sampleChecksums diskName = .ok () := by
  have hentry : expectedHash sampleChecksums diskName = some (sampleSha256Hex [0x61]) := by
    decide +kernel
  exact verify_eq_ok_iff.mpr ⟨_, hentry, beq_self_eq_true _⟩

/-- A disk that fills up while a verified image is written over the cached one: the call
fails, and the cached image is gone. -/
theorem run_destroys_cache :
    Verified sampleSha256Hex (some [0x61]) ∧
      run sampleSha256Hex (sampleEnv (.stopped 0 "no space left on device")) (some [0x61]) =
        (some [], .error "cannot write cache/lionos-disk.bin: no space left on device") ∧
      ¬ Sound sampleSha256Hex (sampleEnv (.stopped 0 "no space left on device"))
        (some [0x61]) := by
  have hrun : run sampleSha256Hex (sampleEnv (.stopped 0 "no space left on device"))
      (some [0x61]) =
        (some [], .error "cannot write cache/lionos-disk.bin: no space left on device") := by
    exact run_of_verified ⟨rfl, _, rfl, decodeUtf8_toUTF8 _⟩ verify_sample rfl
  refine ⟨?_, hrun, ?_⟩
  · intro image himage
    obtain rfl := Option.some.inj himage
    exact ⟨sampleChecksums, verify_sample⟩
  · rw [Sound, hrun]
    decide

end LionOS.Launcher
