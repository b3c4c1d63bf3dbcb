import LionOS.Fs.ShortNames

/-!
# From a listing to a path

The drivers list a directory, put the name an entry is shown under behind the directory's
path, and read the file there. Whatever the device holds, that comes to the entry itself
unless one in front of it goes by the name.
-/

namespace LionOS.Fs

open Lib

/-- The name an entry is shown under. -/
def DirEntry.displayName (e : DirEntry) : List UInt8 :=
  match e.longName with
  | some l => if l.isEmpty then e.shortName else l
  | none => e.shortName

/-- The name is one of the entry's. -/
theorem displayName_mem (e : DirEntry) : e.displayName ∈ e.longName.toList ++ [e.shortName] := by
  unfold DirEntry.displayName
  cases e.longName with
  | none => simp
  | some l =>
    dsimp only
    split
    · simp
    · simp

/-- An entry goes by the name it is shown under. -/
theorem entryMatches_displayName (e : DirEntry) : entryMatches e e.displayName = true := by
  refine List.any_eq_true.mpr ⟨_, displayName_mem e, ?_⟩
  rw [eqAsciiCaseInsensitive_eq]
  exact beq_self_eq_true _

section

variable {dev : BlockDevice} {info : FatInfo}

/-- The loop goes on from the directory its first components lead to. -/
private theorem resolveFrom_append {c : Nat} {comps : List (List UInt8)} {d : DirEntry}
    (h : resolveFrom dev info c comps = some (some d)) (hdir : d.isDir = true)
    {rest : List (List UInt8)} (hne : rest ≠ []) :
    resolveFrom dev info c (comps ++ rest) = resolveFrom dev info d.cluster rest := by
  induction comps generalizing c with
  | nil => cases h
  | cons comp comps ih =>
    rw [resolveFrom] at h
    obtain ⟨⟨ok, entries⟩, hlist, h⟩ := Option.bind_eq_some_iff.mp h
    have hmore : (comps ++ rest).isEmpty = false := by simp [hne]
    rw [List.cons_append, resolveFrom_of_listDir hlist]
    dsimp only at h ⊢
    cases hfind : entries.find? fun e => entryMatches e comp with
    | none =>
      rw [hfind] at h
      cases h
    | some e =>
      rw [hfind] at h
      simp only [hmore, Bool.false_eq_true, if_false]
      cases comps with
      | nil =>
        obtain rfl := Option.some.inj (Option.some.inj h)
        simp only [hdir, Bool.not_true, Bool.false_eq_true, if_false, List.nil_append]
      | cons comp' comps =>
        simp only [List.isEmpty_cons, Bool.false_eq_true, if_false] at h
        cases hd : e.isDir with
        | false =>
          rw [hd] at h
          cases h
        | true =>
          rw [hd] at h
          simp only [Bool.not_true, Bool.false_eq_true, if_false]
          exact ih h

variable {fs : Fs} {p q : List UInt8}

/-- A name behind the path of a directory is looked up in its listing. -/
private theorem findByPath_of_lsPath {ok : Bool} {es : List DirEntry}
    (hdir : isRootPath p = true ∨ ∃ d, resolve dev fs.info p = some (some d) ∧ d.isDir = true)
    (hls : fs.lsPath dev p [] = some (ok, es)) {name : List UInt8}
    (hq : components q = components p ++ [name]) :
    fs.findByPath dev q = some (es.find? fun e => entryMatches e name) := by
  have hturn : ∀ {c}, listDir dev fs.info c [] = some (ok, es) →
      resolveFrom dev fs.info c [name] = some (es.find? fun e => entryMatches e name) := by
    intro c hlist
    rw [resolveFrom_of_listDir hlist]
    cases es.find? fun e => entryMatches e name with
    | none => rfl
    | some e => rfl
  rw [findByPath, resolve, hq]
  rcases hdir with hroot | ⟨d, hd, hdir⟩
  · rw [lsPath, hroot, if_pos rfl] at hls
    rw [components_of_isRootPath hroot]
    exact hturn hls
  · rw [lsPath_of_resolve hd] at hls
    rw [resolveFrom_append hd hdir (by simp)]
    exact hturn hls

/-- **What is listed is found under the name it is shown under.** On every device, for every
path of a directory and every entry of its listing whose shown name is one component of a
path: the name, behind that path, leads to the entry, and reading the file by this path is
reading it by its cluster and size, exactly when no entry in front of it goes by the name. -/
theorem listed_is_found_iff {ok : Bool} {before after : List DirEntry} {e : DirEntry}
    (hdir : isRootPath p = true ∨ ∃ d, resolve dev fs.info p = some (some d) ∧ d.isDir = true)
    (hls : fs.lsPath dev p [] = some (ok, before ++ e :: after)) (hfirst : e ∉ before)
    (hq : components q = components p ++ [e.displayName]) :
    (fs.findByPath dev q = some (some e) ∧
      ∀ out, fs.readPath dev q out =
        if e.isDir then some (false, out) else fs.read dev e.cluster e.size out) ↔
      ∀ x ∈ before, entryMatches x e.displayName = false := by
  have hfind := findByPath_of_lsPath hdir hls hq
  have hself := entryMatches_displayName e
  rw [List.find?_append] at hfind
  constructor
  · rintro ⟨hfound, -⟩ x hx
    rw [hfind] at hfound
    by_contra hmatch
    have hsome : (before.find? fun y => entryMatches y e.displayName).isSome :=
      List.find?_isSome.mpr ⟨x, hx, eq_true_of_ne_false hmatch⟩
    rw [Option.or_of_isSome hsome, Option.some.injEq] at hfound
    exact hfirst (List.mem_of_find?_eq_some hfound)
  · intro hnone
    have hbefore : (before.find? fun y => entryMatches y e.displayName) = none := by
      simpa using hnone
    have hfound : fs.findByPath dev q = some (some e) := by
      rw [hfind, hbefore, Option.none_or]
      simp [hself]
    refine ⟨hfound, fun out => ?_⟩
    rw [findByPath] at hfound
    rw [readPath, hfound]
    rfl

end

/-- `HELLO.TXT` is listed first. -/
theorem listed_is_found_hello :
    ∃ e after, lsPath ⟨helloInfo⟩ helloDisk (ascii "/") [] = some (true, [] ++ e :: after) ∧
      e.displayName = ascii "HELLO.TXT" ∧
      findByPath ⟨helloInfo⟩ helloDisk (ascii "//HELLO.TXT") = some (some e) ∧
      ∀ out, readPath ⟨helloInfo⟩ helloDisk (ascii "//HELLO.TXT") out =
        if e.isDir then some (false, out) else read ⟨helloInfo⟩ helloDisk e.cluster e.size out := by
  have hroot : isRootPath (ascii "/") = true := by decide
  have hls : ∃ e after,
      lsPath ⟨helloInfo⟩ helloDisk (ascii "/") [] = some (true, [] ++ e :: after) ∧
        e.displayName = ascii "HELLO.TXT" :=
    ⟨{ emptyFile #v[0x48, 0x45, 0x4C, 0x4C, 0x4F, 0x20, 0x20, 0x20, 0x54, 0x58, 0x54] with
      cluster := 3, size := 16 }, [emptyFile emptyName], by decide⟩
  obtain ⟨e, after, hls, hname⟩ := hls
  have hfound := (listed_is_found_iff (q := ascii "//HELLO.TXT") (Or.inl hroot) hls (by simp)
    (by rw [hname]; decide)).mpr (by simp)
  exact ⟨e, after, hls, hname, hfound⟩

end LionOS.Fs
