import LionOS.Fs.Lookup

/-!
# The two lookups of a short name

`find` compares the eleven bytes of a name, `find_by_path` its rendering as base and
extension. The rendering stops at the first space of each and not at the padding, so
names that differ behind a space inside are rendered alike. Nothing else is lost: on
upper-case names the rendering determines what stands before the spaces.
-/

namespace LionOS.Fs

open Lib

/-- What is rendered of a name: base and extension, each up to its first space. -/
def DirEntry.cutName (e : DirEntry) : List UInt8 × List UInt8 :=
  ((e.name.toList.take 8).takeWhile (· ≠ 0x20), (e.name.toList.drop 8).takeWhile (· ≠ 0x20))

/-- A base and an extension with a dot between them, if there is an extension. -/
def dotted (name : List UInt8 × List UInt8) : List UInt8 :=
  name.1 ++ if name.2.isEmpty then [] else 0x2E :: name.2

/-- The rendering as text. A name that starts with 0x05 does not start with a character, which
is replaced. -/
def rendered (name : List UInt8 × List UInt8) : List UInt8 :=
  if name.1.head? = some 0x05 then replacement ++ (dotted name).drop 1 else dotted name

/-- ASCII, but neither a small letter nor a dot or a slash. -/
def isNameByte (b : UInt8) : Bool :=
  b < 0x80 && !(0x61 ≤ b && b ≤ 0x7A) && b != 0x2E && b != 0x2F

/-- An entry without a long name whose short name is in capitals. -/
structure DirEntry.Plain (e : DirEntry) : Prop where
  short : e.longName = none
  bytes : ∀ b ∈ e.name.toList, isNameByte b = true
  first : e.name.toList.head? ≠ some 0x20

theorem isNameByte_iff {b : UInt8} :
    isNameByte b = true ↔
      b < 0x80 ∧ ¬ (0x61 ≤ b ∧ b ≤ 0x7A) ∧ b ≠ 0x2E ∧ b ≠ 0x2F := by
  simp only [isNameByte, Bool.and_eq_true, Bool.not_eq_eq_eq_not, Bool.not_true, decide_eq_true_eq,
    bne_iff_ne, ne_eq, and_assoc, ← Bool.not_eq_true]

/-- ASCII is text. -/
theorem utf8Lossy_ascii {bytes : List UInt8} (h : ∀ b ∈ bytes, b < 0x80) :
    utf8Lossy bytes = bytes := by
  unfold utf8Lossy
  induction bytes with
  | nil => rfl
  | cons b bytes ih =>
    have hb := h b (List.mem_cons_self ..)
    have htail := ih fun b hb => h b (List.mem_cons_of_mem _ hb)
    simp only [utf8Rest, List.isEmpty_nil, Bool.not_true, Bool.false_and, Bool.false_eq_true,
      if_false, if_true, hb, htail, List.nil_append]

/-- The character 0xE5 starts lacks the bytes behind it. -/
theorem utf8Lossy_lead {bytes : List UInt8} (h : ∀ b ∈ bytes, b < 0x80) :
    utf8Lossy (0xE5 :: bytes) = replacement ++ bytes := by
  have hlead : utf8Lossy (0xE5 :: bytes) = utf8Rest [0xE5] 2 0x80 0xBF bytes := rfl
  rw [hlead]
  cases bytes with
  | nil => rfl
  | cons b bytes =>
    have hb := h b (List.mem_cons_self ..)
    have hlow : ¬ (0x80 : UInt8) ≤ b := UInt8.not_le.mpr hb
    have htail := utf8Lossy_ascii fun b hb => h b (List.mem_cons_of_mem _ hb)
    rw [utf8Lossy] at htail
    simp only [utf8Rest, List.isEmpty_cons, Bool.not_false, Bool.true_and, hlow, decide_false,
      Bool.false_and, Bool.false_eq_true, if_false, hb, if_true, htail]

/-- A dot separates base and extension. -/
theorem dotted_injective {n n' : List UInt8 × List UInt8} (hn : 0x2E ∉ n.1) (hn' : 0x2E ∉ n'.1)
    (h : dotted n = dotted n') : n = n' := by
  have hbase : ∀ {m : List UInt8 × List UInt8}, 0x2E ∉ m.1 →
      (dotted m).takeWhile (· ≠ 0x2E) = m.1 := by
    intro m hm
    have hall : ∀ b ∈ m.1, decide (b ≠ 0x2E) = true := by
      intro b hb
      simpa using fun heq : b = 0x2E => hm (heq ▸ hb)
    rw [dotted, List.takeWhile_append_of_pos hall]
    cases m.2 with
    | nil => simp
    | cons b ext => simp
  have hfst : n.1 = n'.1 := by rw [← hbase hn, h, hbase hn']
  refine Prod.ext hfst ?_
  rw [dotted, dotted, hfst, List.append_cancel_left_eq] at h
  cases hext : n.2 with
  | nil =>
    cases hext' : n'.2 with
    | nil => rfl
    | cons b ext => simp [hext, hext'] at h
  | cons b ext =>
    cases hext' : n'.2 with
    | nil => simp [hext, hext'] at h
    | cons b' ext' => simpa [hext, hext'] using h

private theorem asciiLower_injective {a b : UInt8} (ha : ¬ (0x61 ≤ a ∧ a ≤ 0x7A))
    (hb : ¬ (0x61 ≤ b ∧ b ≤ 0x7A)) (h : asciiLower a = asciiLower b) : a = b := by
  simp only [asciiLower, Bool.and_eq_true, decide_eq_true_eq] at h
  grind

theorem lower_injective {a b : List UInt8} (ha : ∀ x ∈ a, ¬ (0x61 ≤ x ∧ x ≤ 0x7A))
    (hb : ∀ x ∈ b, ¬ (0x61 ≤ x ∧ x ≤ 0x7A)) (h : lower a = lower b) : a = b := by
  induction a generalizing b with
  | nil => exact (List.map_eq_nil_iff.mp h.symm).symm
  | cons x a ih =>
    obtain ⟨y, b', rfl, hxy, htail⟩ := List.map_eq_cons_iff.mp h.symm
    rw [List.forall_mem_cons] at ha hb
    rw [asciiLower_injective hb.1 ha.1 hxy, ih ha.2 hb.2 htail.symm]

namespace DirEntry

variable {e e' : DirEntry}

/-- A name starts with a byte that is not a space. -/
theorem Plain.name_cons (h : e.Plain) :
    ∃ b rest, e.name.toList = b :: rest ∧ b ≠ 0x20 ∧
      e.cutName = (b :: (rest.take 7).takeWhile (· ≠ 0x20),
        (rest.drop 7).takeWhile (· ≠ 0x20)) := by
  cases hname : e.name.toList with
  | nil =>
    have hlen := e.name.length_toList
    simp [hname] at hlen
  | cons b rest =>
    have hne : b ≠ 0x20 := by simpa [hname] using h.first
    refine ⟨b, rest, rfl, hne, ?_⟩
    rw [cutName, hname, List.take_succ_cons, List.drop_succ_cons,
      List.takeWhile_cons_of_pos (by simpa using hne)]

/-- The bytes of a rendering are bytes of the name. -/
theorem Plain.cutName_bytes (h : e.Plain) {b : UInt8}
    (hb : b ∈ e.cutName.1 ∨ b ∈ e.cutName.2) : isNameByte b = true := by
  apply h.bytes
  rcases hb with hb | hb
  · exact List.mem_of_mem_take ((List.takeWhile_sublist _).subset hb)
  · exact List.mem_of_mem_drop ((List.takeWhile_sublist _).subset hb)

theorem Plain.mem_dotted (h : e.Plain) {b : UInt8} (hb : b ∈ dotted e.cutName) :
    isNameByte b = true ∨ b = 0x2E := by
  rcases List.mem_append.mp hb with hb | hb
  · exact Or.inl (h.cutName_bytes (Or.inl hb))
  · split at hb
    · simp at hb
    · rcases List.mem_cons.mp hb with rfl | hb
      · exact Or.inr rfl
      · exact Or.inl (h.cutName_bytes (Or.inr hb))

/-- The short name of a plain entry is the rendering of what is in front of the spaces. -/
theorem Plain.shortName_eq (h : e.Plain) : e.shortName = rendered e.cutName := by
  obtain ⟨b, rest, hname, hne, hcut⟩ := h.name_cons
  have hfirst : e.name[0] = b := by
    have hget : e.name.toList[0]? = some e.name[0] := by simp
    rw [hname] at hget
    simpa using hget.symm
  have hascii : ∀ x ∈ dotted e.cutName, x < 0x80 := by
    intro x hx
    rcases h.mem_dotted hx with hx | rfl
    · exact (isNameByte_iff.mp hx).1
    · decide
  have hdrop : ∀ x ∈ (dotted e.cutName).drop 1, x < 0x80 :=
    fun x hx => hascii x (List.mem_of_mem_drop hx)
  rw [rendered]
  by_cases hfive : b = 0x05
  · rw [if_pos (by rw [hcut]; exact congrArg some hfive), ← utf8Lossy_lead hdrop, hcut]
    simp only [shortName, hfirst, hname, hfive, if_true]
    rfl
  · rw [if_neg (by rw [hcut]; simpa using hfive), shortName, hfirst, if_neg hfive]
    exact utf8Lossy_ascii hascii

/-- A short name in capitals has no small letters and no slash. -/
theorem Plain.mem_shortName (h : e.Plain) {b : UInt8} (hb : b ∈ e.shortName) :
    ¬ (0x61 ≤ b ∧ b ≤ 0x7A) ∧ b ≠ 0x2F := by
  have hdotted : ∀ x ∈ dotted e.cutName, ¬ (0x61 ≤ x ∧ x ≤ 0x7A) ∧ x ≠ 0x2F := by
    intro x hx
    rcases h.mem_dotted hx with hx | rfl
    · obtain ⟨-, hsmall, -, hslash⟩ := isNameByte_iff.mp hx
      exact ⟨hsmall, hslash⟩
    · decide
  have hreplacement : ∀ x ∈ replacement, ¬ (0x61 ≤ x ∧ x ≤ 0x7A) ∧ x ≠ 0x2F := by
    simp only [replacement, List.forall_mem_cons, List.not_mem_nil, false_implies, implies_true]
    decide
  rw [h.shortName_eq, rendered] at hb
  split at hb
  · rcases List.mem_append.mp hb with hb | hb
    · exact hreplacement b hb
    · exact hdotted b (List.mem_of_mem_drop hb)
  · exact hdotted b hb

/-- The rendering starts with the name's first byte. -/
theorem Plain.dotted_cons (h : e.Plain) :
    ∃ b, isNameByte b = true ∧ e.cutName.1.head? = some b ∧
      dotted e.cutName = b :: (dotted e.cutName).drop 1 := by
  obtain ⟨b, rest, hname, -, hcut⟩ := h.name_cons
  refine ⟨b, h.bytes b (by simp [hname]), by rw [hcut]; rfl, ?_⟩
  rw [hcut]
  rfl

/-- The replacement character does not start a rendering of capitals. -/
theorem Plain.dotted_ne_replacement (h : e.Plain) (rest : List UInt8) :
    dotted e.cutName ≠ replacement ++ rest := by
  obtain ⟨b, hb, -, hdotted⟩ := h.dotted_cons
  intro heq
  rw [heq] at hdotted
  have hfirst : 0xEF = b := (List.cons.inj hdotted).1
  rw [← hfirst] at hb
  exact absurd hb (by decide)

theorem Plain.rendered_injective (h : e.Plain) (h' : e'.Plain)
    (heq : rendered e.cutName = rendered e'.cutName) : dotted e.cutName = dotted e'.cutName := by
  obtain ⟨b, -, hhead, hdotted⟩ := h.dotted_cons
  obtain ⟨b', -, hhead', hdotted'⟩ := h'.dotted_cons
  simp only [rendered, hhead, hhead', Option.some.injEq] at heq
  by_cases hb : b = 0x05
  · by_cases hb' : b' = 0x05
    · rw [if_pos hb, if_pos hb', List.append_cancel_left_eq] at heq
      rw [hdotted, hdotted', heq, hb, hb']
    · rw [if_pos hb, if_neg hb'] at heq
      exact absurd heq.symm (h'.dotted_ne_replacement _)
  · by_cases hb' : b' = 0x05
    · rw [if_neg hb, if_pos hb'] at heq
      exact absurd heq (h.dotted_ne_replacement _)
    · rwa [if_neg hb, if_neg hb'] at heq

/-- Two plain entries have the same short name when their names agree in front of the spaces,
and only then. -/
theorem Plain.shortName_eq_iff (h : e.Plain) (h' : e'.Plain) :
    e.shortName = e'.shortName ↔ e.cutName = e'.cutName := by
  have hdot : ∀ {x : DirEntry}, x.Plain → 0x2E ∉ x.cutName.1 := by
    intro x hx hmem
    exact (isNameByte_iff.mp (hx.cutName_bytes (Or.inl hmem))).2.2.1 rfl
  rw [h.shortName_eq, h'.shortName_eq]
  exact ⟨fun heq => dotted_injective (hdot h) (hdot h') (h.rendered_injective h' heq),
    fun heq => congrArg rendered heq⟩

/-- A plain entry matches another's short name when the two are rendered alike. -/
theorem Plain.entryMatches_iff (h : e.Plain) (h' : e'.Plain) :
    entryMatches e e'.shortName = true ↔ e.cutName = e'.cutName := by
  have hlower : lower e.shortName = lower e'.shortName ↔ e.shortName = e'.shortName :=
    ⟨lower_injective (fun x hx => (h.mem_shortName hx).1) fun x hx => (h'.mem_shortName hx).1,
      congrArg lower⟩
  rw [← h.shortName_eq_iff h', ← hlower]
  simp [entryMatches, h.short, eqAsciiCaseInsensitive_eq]

end DirEntry

/-- A text without a slash is one component. -/
theorem components_singleton {path : List UInt8} (hslash : 0x2F ∉ path) (hne : path ≠ []) :
    components path = [path] := by
  rw [components, List.splitOn_eq_singleton hslash]
  simpa using hne

theorem DirEntry.Plain.components_shortName {e : DirEntry} (h : e.Plain) :
    components e.shortName = [e.shortName] := by
  refine components_singleton (fun hmem => (h.mem_shortName hmem).2 rfl) ?_
  obtain ⟨b, -, hhead, hdotted⟩ := h.dotted_cons
  rw [h.shortName_eq, rendered]
  split
  · simp [replacement]
  · rw [hdotted]
    simp

/-- **The two lookups of a short name.** For every root directory without long names whose
names are distinct and in capitals, and every entry of it: `find` with the entry's name and
`find_by_path` with its short name both return the entry exactly when no entry in front of
it agrees with it in the base and in the extension up to their first spaces. -/
theorem lookups_agree_iff {fs : Fs} {dev : BlockDevice} {ok : Bool}
    {before after : List DirEntry} {e : DirEntry}
    (hroot : fs.ls dev [] = some (ok, before ++ e :: after))
    (hplain : ∀ x ∈ before ++ e :: after, x.Plain)
    (hdistinct : ((before ++ e :: after).map DirEntry.name).Nodup) :
    (fs.find dev e.name = some (some e) ∧ fs.findByPath dev e.shortName = some (some e)) ↔
      ∀ x ∈ before, x.cutName ≠ e.cutName := by
  have he : e.Plain := hplain e (by simp)
  have hname : ∀ x ∈ before, x.name ≠ e.name := by
    rw [List.map_append, List.map_cons, List.nodup_append] at hdistinct
    exact fun x hx => hdistinct.2.2 _ (List.mem_map_of_mem hx) _ (List.mem_cons_self ..)
  have hfind : fs.find dev e.name = some (some e) := by
    have hnone : before.find? (fun x => x.name == e.name) = none := by
      simpa using hname
    rw [find, hroot]
    simp [List.find?_append, hnone]
  have hpath : fs.findByPath dev e.shortName =
      some ((before ++ e :: after).find? fun x => entryMatches x e.shortName) := by
    rw [findByPath, resolve, he.components_shortName, resolveFrom_of_listDir hroot]
    cases (before ++ e :: after).find? fun x => entryMatches x e.shortName with
    | none => rfl
    | some x => rfl
  have hself : entryMatches e e.shortName = true := (he.entryMatches_iff he).mpr rfl
  simp only [hfind, true_and, hpath, Option.some.injEq, List.find?_append]
  constructor
  · intro hfound x hx hcut
    have hmatch := ((hplain x (by simp [hx])).entryMatches_iff he).mpr hcut
    have hsome : (before.find? fun x => entryMatches x e.shortName).isSome :=
      List.find?_isSome.mpr ⟨x, hx, hmatch⟩
    obtain ⟨y, hy⟩ := Option.isSome_iff_exists.mp hsome
    rw [hy, Option.some_or, Option.some.injEq] at hfound
    exact hname y (List.mem_of_find?_eq_some hy) (congrArg DirEntry.name hfound)
  · intro hcut
    have hnone : before.find? (fun x => entryMatches x e.shortName) = none := by
      rw [List.find?_eq_none]
      intro x hx hmatch
      exact hcut x hx (((hplain x (by simp [hx])).entryMatches_iff he).mp hmatch)
    simp [hnone, hself]

instance (e : DirEntry) : Decidable e.Plain :=
  decidable_of_iff
    (e.longName = none ∧ e.name.toList.all isNameByte = true ∧
      e.name.toList.head? ≠ some 0x20)
    ⟨fun ⟨hs, hb, hf⟩ => ⟨hs, List.all_eq_true.mp hb, hf⟩,
      fun ⟨hs, hb, hf⟩ => ⟨hs, List.all_eq_true.mpr hb, hf⟩⟩

/-- An entry of a file without clusters. -/
def emptyFile (name : Vector UInt8 11) : DirEntry where
  name := name
  cluster := 0
  size := 0
  isDir := false
  longName := none

/-- The name of `EMPTY.TXT`. -/
def emptyName : Vector UInt8 11 :=
  #v[0x45, 0x4D, 0x50, 0x54, 0x59, 0x20, 0x20, 0x20, 0x54, 0x58, 0x54]

/-- Both lookups find `EMPTY.TXT` behind `HELLO.TXT`. -/
theorem lookups_agree_hello :
    find ⟨helloInfo⟩ helloDisk emptyName = some (some (emptyFile emptyName)) ∧
      findByPath ⟨helloInfo⟩ helloDisk (emptyFile emptyName).shortName =
        some (some (emptyFile emptyName)) := by
  have hroot : ∃ e, ls ⟨helloInfo⟩ helloDisk [] = some (true, [e] ++ emptyFile emptyName :: []) ∧
      e.Plain ∧ e.name ≠ emptyName ∧ e.cutName ≠ (emptyFile emptyName).cutName :=
    ⟨{ emptyFile #v[0x48, 0x45, 0x4C, 0x4C, 0x4F, 0x20, 0x20, 0x20, 0x54, 0x58, 0x54] with
      cluster := 3, size := 16 }, by decide⟩
  obtain ⟨e, hls, hplain, hname, hcut⟩ := hroot
  have hempty : (emptyFile emptyName).Plain := by decide
  exact (lookups_agree_iff hls (by simpa using ⟨hplain, hempty⟩)
    (by simpa [emptyFile] using hname)).mpr (by simpa using hcut)

/-- A root directory with `A.TXT` and a name with a space inside. -/
def spaceDisk : BlockDevice := fun lba =>
  if lba = 4 then
    some (sectorOf [0x41, 0x20, 0x20, 0x20, 0x20, 0x20, 0x20, 0x20, 0x54, 0x58, 0x54, 0x20,
      0, 0, 0, 0, 0, 0, 0, 0, 0, 0, 0, 0, 0, 0, 0, 0, 0, 0, 0, 0,
      0x41, 0x20, 0x42, 0x20, 0x20, 0x20, 0x20, 0x20, 0x54, 0x58, 0x54, 0x20,
      0, 0, 0, 0, 0, 0, 0, 0, 0, 0, 0, 0, 0, 0, 0, 0, 0, 0, 0, 0])
  else helloDisk lba

/-- The short name of the second file leads to the first. -/
theorem space_inside_name :
    ∃ e e', ls ⟨helloInfo⟩ spaceDisk [] = some (true, [e, e']) ∧ (∀ x ∈ [e, e'], x.Plain) ∧
      ([e, e'].map DirEntry.name).Nodup ∧ e ≠ e' ∧
      find ⟨helloInfo⟩ spaceDisk e'.name = some (some e') ∧
      findByPath ⟨helloInfo⟩ spaceDisk e'.shortName = some (some e) := by
  refine ⟨emptyFile #v[0x41, 0x20, 0x20, 0x20, 0x20, 0x20, 0x20, 0x20, 0x54, 0x58, 0x54],
    emptyFile #v[0x41, 0x20, 0x42, 0x20, 0x20, 0x20, 0x20, 0x20, 0x54, 0x58, 0x54], ?_⟩
  decide

end LionOS.Fs
