import LionOS.Launcher.Selection
import LionOS.Launcher.Update

/-!
# The saved selection

`to_toml` writes the enabled keys as an array of quoted strings. `from_toml` takes any text: it
looks for lines that start with `enabled` under a heading that starts with `[components]`, and
keeps what stands between quotes and has no punctuation in it.
-/

namespace LionOS.Launcher

/-- `str::starts_with`. -/
def startsWith (s start : String) : Bool := start.toList.isPrefixOf s.toList

/-- `str::split('"')`. -/
def splitQuotes (line : String) : List String := (line.toList.splitOn '"').map String.ofList

/-- A piece that is kept. -/
def isToken (tok : String) : Bool :=
  !tok.isEmpty && !tok.toList.any fun c => ['[', ']', ',', '=', ' '].contains c

/-- The key of the roster that is written so, or the text itself. -/
def knownKey (tok : String) : String :=
  match components.find? (·.key == tok) with
  | some c => c.key
  | none => tok

namespace Selection

/-- One key of the array, behind a comma unless it is the first. -/
def pushKey (out : String) (entry : String × Nat) : String :=
  let out := if 0 < entry.2 then out ++ ", " else out
  out ++ "\"" ++ entry.1 ++ "\""

/-- Serialize as a minimal TOML config. -/
def toToml (s : Selection) : String :=
  s.enabled.zipIdx.foldl pushKey "[components]\nenabled = [" ++ "]\n"

/-- A turn of the loop over the lines, with `capture` and the keys so far. -/
def readLine (state : Bool × List String) (line : String) : Bool × List String :=
  let line := trim line
  if startsWith line "[" then (startsWith line "[components]", state.2)
  else if state.1 && startsWith line "enabled" then
    (state.1, state.2 ++ ((splitQuotes line).filter isToken).map knownKey)
  else state

/-- A turn of the loop over the roster: a required component is added if it is missing. -/
def mergeRequired (enabled : List String) (c : Component) : List String :=
  if c.required && !enabled.contains c.key then enabled ++ [c.key] else enabled

/-- Parse a document back into a selection. No document is rejected. -/
def fromToml (text : String) : Except String Selection :=
  let enabled := ((lines text).foldl readLine (false, [])).2
  .ok ⟨components.foldl mergeRequired enabled⟩

end Selection

variable {s : Selection} {keys : List String} {k : String}

theorem knownKey_eq (tok : String) : knownKey tok = tok := by
  unfold knownKey
  split
  next c hc =>
    have hkey : (c.key == tok) = true := List.find?_some (p := fun c : Component => c.key == tok) hc
    exact eq_of_beq hkey
  next => rfl

/-- No roster key would be dropped, or cut at a quote or at the end of a line. -/
theorem rosterKeys_quotable :
    ∀ k ∈ rosterKeys, isToken k = true ∧ '"' ∉ k.toList ∧ '\n' ∉ k.toList := by
  decide

/-- The array behind its first key. -/
def quotedTail (keys : List String) : List Char :=
  match keys with
  | [] => [']']
  | k :: keys => [',', ' '] ++ '"' :: (k.toList ++ '"' :: quotedTail keys)

/-- What stands before the first key. -/
def arrayStart : List Char := ['e', 'n', 'a', 'b', 'l', 'e', 'd', ' ', '=', ' ', '[']

/-- The line of the array. -/
def enabledLine (k : String) (keys : List String) : List Char :=
  arrayStart ++ '"' :: (k.toList ++ '"' :: quotedTail keys)

private theorem toList_foldl_pushKey (keys : List String) (out : String) (n : Nat) :
    ((keys.zipIdx (n + 1)).foldl Selection.pushKey out).toList ++ [']'] =
      out.toList ++ quotedTail keys := by
  induction keys generalizing out n with
  | nil => rfl
  | cons k keys ih =>
    rw [List.zipIdx_cons, List.foldl_cons, ih, Selection.pushKey, if_pos (Nat.succ_pos n)]
    simp only [String.toList_append, quotedTail, List.append_assoc]
    rfl

theorem toList_toToml (k : String) (keys : List String) :
    (Selection.toToml ⟨k :: keys⟩).toList =
      "[components]".toList ++ '\n' :: (enabledLine k keys ++ '\n' :: []) := by
  have hend : "]\n".toList = [']'] ++ ['\n'] := rfl
  rw [Selection.toToml, List.zipIdx_cons, List.foldl_cons, String.toList_append, hend,
    ← List.append_assoc, toList_foldl_pushKey, Selection.pushKey, if_neg (Nat.lt_irrefl 0)]
  have hstart : "[components]\nenabled = [".toList =
      "[components]".toList ++ '\n' :: arrayStart := rfl
  have hquote : "\"".toList = ['"'] := rfl
  simp only [String.toList_append, hstart, hquote, enabledLine, List.append_assoc,
    List.cons_append, List.nil_append]

theorem newline_not_mem_quotedTail (h : ∀ k ∈ keys, '\n' ∉ k.toList) : '\n' ∉ quotedTail keys := by
  induction keys with
  | nil => decide
  | cons k keys ih =>
    obtain ⟨hk, hkeys⟩ := List.forall_mem_cons.mp h
    have hrest := ih hkeys
    simp [quotedTail, hk, hrest]

theorem newline_not_mem_enabledLine (hk : '\n' ∉ k.toList) (h : ∀ k ∈ keys, '\n' ∉ k.toList) :
    '\n' ∉ enabledLine k keys := by
  have htail := newline_not_mem_quotedTail h
  simp [enabledLine, arrayStart, hk, htail]

/-- A quoted key is kept, and what stands in front of the quote is not. -/
theorem splitOn_quoted {before rest : List Char} (hbefore : '"' ∉ before)
    (hdrop : ¬ isToken (String.ofList before) = true) (hk : isToken k = true ∧ '"' ∉ k.toList) :
    (((before ++ '"' :: (k.toList ++ '"' :: rest)).splitOn '"').map String.ofList).filter isToken =
      k :: ((rest.splitOn '"').map String.ofList).filter isToken := by
  rw [List.splitOn_append_cons_self_of_not_mem hbefore,
    List.splitOn_append_cons_self_of_not_mem hk.2, List.map_cons, List.map_cons,
    List.filter_cons_of_neg hdrop, String.ofList_toList, List.filter_cons_of_pos hk.1]

/-- The array is read back key by key. -/
theorem splitOn_quotedTail (h : ∀ k ∈ keys, isToken k = true ∧ '"' ∉ k.toList) :
    (((quotedTail keys).splitOn '"').map String.ofList).filter isToken = keys := by
  induction keys with
  | nil => decide
  | cons k keys ih =>
    obtain ⟨hk, hkeys⟩ := List.forall_mem_cons.mp h
    rw [quotedTail, splitOn_quoted (by decide) (by decide) hk, ih hkeys]

theorem getLast?_quotedTail (keys : List String) : (quotedTail keys).getLast? = some ']' := by
  induction keys with
  | nil => rfl
  | cons k keys ih =>
    rw [quotedTail, List.getLast?_append_cons, List.getLast?_cons, List.getLast?_append_cons,
      List.getLast?_cons, ih]
    rfl

theorem getLast?_enabledLine (k : String) (keys : List String) :
    (enabledLine k keys).getLast? = some ']' := by
  rw [enabledLine, List.getLast?_append_cons, List.getLast?_cons, List.getLast?_append_cons,
    List.getLast?_cons, getLast?_quotedTail]
  rfl

/-- A line that begins and ends with no blank is not trimmed. -/
theorem trim_ofList {line : List Char} {first last : Char} (hfirst : line.head? = some first)
    (hlast : line.getLast? = some last) (hf : isWhitespace first = false)
    (hl : isWhitespace last = false) : trim (String.ofList line) = String.ofList line := by
  have hfront : line.dropWhile isWhitespace = line := by
    refine List.dropWhile_eq_self_iff.mpr fun hpos => ?_
    rw [List.head?_eq_getElem?, List.getElem?_eq_getElem hpos] at hfirst
    rw [Option.some.inj hfirst, hf]
    exact Bool.false_ne_true
  have hback : line.rdropWhile isWhitespace = line := by
    refine List.rdropWhile_eq_self_iff.mpr fun hne => ?_
    rw [List.getLast?_eq_some_getLast hne] at hlast
    rw [Option.some.inj hlast, hl]
    exact Bool.false_ne_true
  rw [trim, String.toList_ofList, hfront, hback]

/-- The document has two lines. -/
theorem lines_toToml (hk : '\n' ∉ k.toList) (h : ∀ k ∈ keys, '\n' ∉ k.toList) :
    lines (Selection.toToml ⟨k :: keys⟩) =
      ["[components]", String.ofList (enabledLine k keys)] := by
  have hheading : '\n' ∉ "[components]".toList := by decide
  have hcr : stripCr (enabledLine k keys) = enabledLine k keys := by
    rw [stripCr, getLast?_enabledLine]
    exact if_neg (by decide)
  rw [lines, toList_toToml, List.splitOn_append_cons_self_of_not_mem hheading,
    List.splitOn_append_cons_self_of_not_mem (newline_not_mem_enabledLine hk h), List.splitOn_nil]
  change [String.ofList (stripCr "[components]".toList),
    String.ofList (stripCr (enabledLine k keys))] = _
  have hplain : stripCr "[components]".toList = "[components]".toList := by decide
  rw [hplain, hcr, String.ofList_toList]

namespace Selection

/-- The scanner turns its attention on at the heading. -/
theorem readLine_heading : readLine (false, []) "[components]" = (true, []) := by
  decide

/-- It keeps the keys of the array, and the array line has no other tokens. -/
theorem readLine_enabledLine (hk : isToken k = true ∧ '"' ∉ k.toList)
    (h : ∀ k ∈ keys, isToken k = true ∧ '"' ∉ k.toList) :
    readLine (true, []) (String.ofList (enabledLine k keys)) = (true, k :: keys) := by
  have htrim : trim (String.ofList (enabledLine k keys)) = String.ofList (enabledLine k keys) :=
    trim_ofList rfl (getLast?_enabledLine k keys) (by decide) (by decide)
  have hheading : startsWith (String.ofList (enabledLine k keys)) "[" = false := by
    rw [startsWith, String.toList_ofList (l := enabledLine k keys)]
    rfl
  have henabled : startsWith (String.ofList (enabledLine k keys)) "enabled" = true := by
    rw [startsWith, String.toList_ofList (l := enabledLine k keys)]
    rfl
  have hpieces : (splitQuotes (String.ofList (enabledLine k keys))).filter isToken = k :: keys := by
    rw [splitQuotes, String.toList_ofList, enabledLine,
      splitOn_quoted (by decide) (by decide) hk, splitOn_quotedTail h]
  rw [readLine, htrim, hheading, henabled, hpieces,
    List.map_congr_left fun tok _ => knownKey_eq tok, List.map_id']
  rfl

/-- Nothing is added where all required components are there. -/
private theorem foldl_mergeRequired (roster : List Component)
    (h : ∀ c ∈ roster, c.required = true → c.key ∈ keys) :
    roster.foldl mergeRequired keys = keys := by
  induction roster with
  | nil => rfl
  | cons c roster ih =>
    obtain ⟨hc, hroster⟩ := List.forall_mem_cons.mp h
    have hsame : mergeRequired keys c = keys := by
      rw [mergeRequired, if_neg]
      simpa using hc
    rw [List.foldl_cons, hsame, ih hroster]

/-- What the picker keeps is read back as it was. -/
theorem Valid.fromToml_toToml (h : s.Valid) : fromToml s.toToml = .ok s := by
  obtain ⟨keys⟩ := s
  cases keys with
  | nil => exact absurd (h.required "core" (by decide)) List.not_mem_nil
  | cons k keys =>
    have hplain := fun key hkey => rosterKeys_quotable key (h.roster key hkey)
    obtain ⟨hk, hkeys⟩ := List.forall_mem_cons.mp hplain
    have hmerge : components.foldl mergeRequired (k :: keys) = k :: keys :=
      foldl_mergeRequired components fun c hc hreq => h.required c.key
        (List.any_eq_true.mpr ⟨c, hc, by simp [hreq]⟩)
    rw [fromToml, lines_toToml hk.2.2 fun key hkey => (hkeys key hkey).2.2, List.foldl_cons,
      readLine_heading, List.foldl_cons,
      readLine_enabledLine ⟨hk.1, hk.2.1⟩ fun key hkey =>
        ⟨(hkeys key hkey).1, (hkeys key hkey).2.1⟩,
      List.foldl_nil, hmerge]

/-- **A saved selection loads back unchanged**, after every history of toggles on roster keys:
the same keys in the same order. -/
theorem fromToml_toToml_toggleAll (keys : List String) (hkeys : ∀ k ∈ keys, k ∈ rosterKeys) :
    fromToml (default.toggleAll keys).toToml = .ok (default.toggleAll keys) :=
  (default_valid.toggleAll hkeys).fromToml_toToml

theorem fromToml_toToml_toggleAll_pci :
    (default.toggleAll ["pci", "ai", "pci"]).enabled.getLast? = some "pci" ∧
      fromToml (default.toggleAll ["pci", "ai", "pci"]).toToml =
        .ok (default.toggleAll ["pci", "ai", "pci"]) :=
  ⟨by decide, fromToml_toToml_toggleAll ["pci", "ai", "pci"] (by decide)⟩

end Selection

end LionOS.Launcher
