import Ixml.Proofs.Xml.Text
import Ixml.Text.Hex
import Ixml.Xml.Escape
import Mathlib.Data.List.Infix

/-!
# Reading back what has been escaped

What a processor of XML 1.0 makes of character data (`readText`) and of what stands between the double quotes of an
attribute (`readValue`): first the ends of lines are normalised, then white space in a value becomes blanks, and
references are expanded. An attribute value survives being escaped and read. Character data survives but for the ends of
its lines, because a carriage return is written as it is (`read_escaped`).
-/

namespace Ixml.Xml

/-! ### A processor -/

/-- End-of-line handling (XML 1.0, 2.11), which comes before everything else. -/
def normalizeLines : List Char → List Char
  | [] => []
  | '\r' :: '\n' :: cs => '\n' :: normalizeLines cs
  | '\r' :: cs => '\n' :: normalizeLines cs
  | c :: cs => c :: normalizeLines cs

/-- The entities that need no declaration (XML 1.0, 4.6). -/
def predefined : List (List Char × Char) :=
  [("amp".toList, '&'), ("lt".toList, '<'), ("gt".toList, '>'), ("apos".toList, '\''), ("quot".toList, '"')]

/-- The character with a code, if it may stand in a document. -/
def charOfCode? (n : Nat) : Option Char :=
  if h : n.isValidChar then
    let c := Char.ofNatAux n h
    if isChar c then some c else none
  else none

/-- What a reference stands for (XML 1.0, 4.1), by the characters between its ampersand and its semicolon. -/
def referent? : List Char → Option Char
  | '#' :: 'x' :: ds => if ds ≠ [] ∧ ds.all Text.Hex.isDigit then charOfCode? (Text.Hex.value ds) else none
  | '#' :: ds => if ds ≠ [] ∧ ds.all Char.isDigit then charOfCode? (Nat.ofDigitChars 10 ds 0) else none
  | name => (predefined.find? fun e => e.1 == name).map Prod.snd

/-- Expand references. The first argument says what a character stands for that is written as itself, the second holds
what has been read of a reference, the last character first. -/
def expand (plain : Char → Option Char) : Option (List Char) → List Char → Option (List Char)
  | none, [] => some []
  | some _, [] => none
  | none, c :: cs =>
    if c = '&' then expand plain (some []) cs
    else do return (← plain c) :: (← expand plain none cs)
  | some name, c :: cs =>
    if c = ';' then do return (← referent? name.reverse) :: (← expand plain none cs)
    else expand plain (some (c :: name)) cs

/-- A character that is written as itself in character data. -/
def textChar? (c : Char) : Option Char :=
  if isChar c = true ∧ c ≠ '<' then some c else none

/-- A character that is written as itself between double quotes; white space is normalised (XML 1.0, 3.3.3). -/
def valueChar? (c : Char) : Option Char :=
  if isChar c = true ∧ c ≠ '<' ∧ c ≠ '"' then some (if c ∈ [' ', '\t', '\n', '\r'] then ' ' else c) else none

/-- Read character data, in which the end of a CDATA section may not stand. -/
def readText (raw : String) : Option String :=
  let cs := normalizeLines raw.toList
  if "]]>".toList <:+: cs then none else (expand textChar? none cs).map String.ofList

/-- Read what stands between the double quotes of an attribute. -/
def readValue (raw : String) : Option String :=
  (expand valueChar? none (normalizeLines raw.toList)).map String.ofList

variable {c d : Char} {cs ds es : List Char} {s : String} {plain : Char → Option Char}

/-! ### Ends of lines -/

theorem normalizeLines_cons (h : c ≠ '\r') (cs : List Char) : normalizeLines (c :: cs) = c :: normalizeLines cs := by
  rw [normalizeLines]
  · exact fun _ hc _ => h hc
  · exact fun hc => h hc

theorem normalizeLines_append (h : '\r' ∉ cs) (ds : List Char) :
    normalizeLines (cs ++ ds) = cs ++ normalizeLines ds := by
  induction cs with
  | nil => rfl
  | cons c cs ih =>
    rw [List.mem_cons, not_or] at h
    rw [List.cons_append, normalizeLines_cons (Ne.symm h.1), ih h.2, List.cons_append]

theorem return_notMem_normalizeLines (cs : List Char) : '\r' ∉ normalizeLines cs := by
  fun_induction normalizeLines cs with
  | case1 => exact List.not_mem_nil
  | case2 cs ih => simpa using ih
  | case3 cs _ ih => simpa using ih
  | case4 c cs _ hc ih => simpa [eq_comm, ih] using hc

theorem normalizeLines_eq_self_iff : normalizeLines cs = cs ↔ '\r' ∉ cs := by
  constructor
  · intro h
    rw [← h]
    exact return_notMem_normalizeLines cs
  · intro h
    simpa [normalizeLines] using normalizeLines_append h []

theorem isChar_of_mem_normalizeLines (h : ∀ c ∈ cs, isChar c = true) : ∀ c ∈ normalizeLines cs, isChar c = true := by
  have hfeed : isChar '\n' = true := by decide
  fun_induction normalizeLines cs with
  | case1 => exact h
  | case2 cs ih => exact List.forall_mem_cons.mpr ⟨hfeed, ih fun c hc => h c (by simp [hc])⟩
  | case3 cs _ ih => exact List.forall_mem_cons.mpr ⟨hfeed, ih fun c hc => h c (by simp [hc])⟩
  | case4 c cs _ _ ih =>
    exact List.forall_mem_cons.mpr ⟨h c (List.mem_cons_self ..), ih fun d hd => h d (by simp [hd])⟩

/-! ### References -/

theorem expand_char (h : c ≠ '&') (hc : plain c = some d) (cs : List Char) :
    expand plain none (c :: cs) = (expand plain none cs).map (d :: ·) := by
  rw [expand, if_neg h, hc]
  cases expand plain none cs <;> rfl

theorem expand_within {name : List Char} (h : ';' ∉ cs) (ds : List Char) :
    expand plain (some name) (cs ++ ds) = expand plain (some (cs.reverse ++ name)) ds := by
  induction cs generalizing name with
  | nil => rfl
  | cons c cs ih =>
    rw [List.mem_cons, not_or] at h
    rw [List.cons_append, expand, if_neg (Ne.symm h.1), ih h.2]
    simp

theorem expand_reference (h : ';' ∉ cs) (hd : referent? cs = some d) (ds : List Char) :
    expand plain none ('&' :: (cs ++ ';' :: ds)) = (expand plain none ds).map (d :: ·) := by
  rw [expand, if_pos rfl, expand_within h, expand, if_pos rfl, List.append_nil, List.reverse_reverse, hd]
  cases expand plain none ds <;> rfl

/-- What a character is written as, if it is read back as that character wherever it stands. -/
def ReadsBack (plain : Char → Option Char) (code : List Char) (c : Char) : Prop :=
  ∀ cs, expand plain none (code ++ cs) = (expand plain none cs).map (c :: ·)

theorem expand_flatMap {f : Char → List Char} (h : ∀ c ∈ cs, ReadsBack plain (f c) c) :
    expand plain none (cs.flatMap f) = some cs := by
  induction cs with
  | nil => rfl
  | cons c cs ih =>
    rw [List.flatMap_cons, h c (List.mem_cons_self ..), ih fun d hd => h d (List.mem_cons_of_mem _ hd)]
    rfl

theorem readsBack_reference (code : List Char) (h : ';' ∉ code) (hc : referent? code = some c) :
    ReadsBack plain ('&' :: (code ++ [';'])) c := fun cs => by
  simpa using expand_reference h hc cs

theorem readsBack_char (h : c ≠ '&') (hc : plain c = some c) : ReadsBack plain [c] c :=
  expand_char h hc

theorem readsBack_escapeTextChar (h : isChar c = true) : ReadsBack textChar? (escapeTextChar c).toList c := by
  unfold escapeTextChar
  split
  · exact readsBack_reference "amp".toList (by decide) rfl
  · exact readsBack_reference "lt".toList (by decide) rfl
  · exact readsBack_reference "gt".toList (by decide) rfl
  · rename_i hamp hlt _
    rw [String.toList_singleton]
    exact readsBack_char hamp (if_pos ⟨h, hlt⟩)

theorem readsBack_escapeAttributeChar (h : isChar c = true) :
    ReadsBack valueChar? (escapeAttributeChar c).toList c := by
  unfold escapeAttributeChar
  split
  · exact readsBack_reference "amp".toList (by decide) rfl
  · exact readsBack_reference "lt".toList (by decide) rfl
  · exact readsBack_reference "quot".toList (by decide) rfl
  · exact readsBack_reference "#9".toList (by decide) (by decide)
  · exact readsBack_reference "#10".toList (by decide) (by decide)
  · exact readsBack_reference "#13".toList (by decide) (by decide)
  · rename_i hamp hlt hquote htab hfeed hreturn
    rw [String.toList_singleton]
    refine readsBack_char hamp ?_
    rw [valueChar?, if_pos ⟨h, hlt, hquote⟩]
    split
    · -- of the white space only the blank is written as itself
      simp_all
    · rfl

/-! ### Escaped texts -/

theorem toList_escapeText (s : String) :
    (escapeText s).toList = s.toList.flatMap fun c => (escapeTextChar c).toList := by
  rw [escapeText, String.toList_join, List.flatMap_map]

theorem toList_escapeAttribute (s : String) :
    (escapeAttribute s).toList = s.toList.flatMap fun c => (escapeAttributeChar c).toList := by
  rw [escapeAttribute, String.toList_join, List.flatMap_map]

theorem return_notMem_escapeTextChar (h : c ≠ '\r') : '\r' ∉ (escapeTextChar c).toList := by
  unfold escapeTextChar
  split
  all_goals first | decide | simpa [eq_comm] using h

theorem return_notMem_escapeAttributeChar (c : Char) : '\r' ∉ (escapeAttributeChar c).toList := by
  unfold escapeAttributeChar
  split
  all_goals first | decide | simp_all [eq_comm]

theorem greater_notMem_escapeTextChar (c : Char) : '>' ∉ (escapeTextChar c).toList := by
  unfold escapeTextChar
  split
  all_goals first | decide | simp_all [eq_comm]

/-- Escaping leaves the ends of lines as they are. -/
theorem normalizeLines_flatMap_escapeTextChar (cs : List Char) :
    normalizeLines (cs.flatMap fun c => (escapeTextChar c).toList) =
      (normalizeLines cs).flatMap fun c => (escapeTextChar c).toList := by
  have hreturn : (escapeTextChar '\r').toList = ['\r'] := rfl
  have hfeed : (escapeTextChar '\n').toList = ['\n'] := rfl
  fun_induction normalizeLines cs with
  | case1 => rfl
  | case2 cs ih => simp only [List.flatMap_cons, hreturn, hfeed, List.singleton_append, normalizeLines, ih]
  | case3 cs hcs ih =>
    rw [List.flatMap_cons, hreturn, List.flatMap_cons, hfeed, List.singleton_append, List.singleton_append, ← ih]
    -- what follows does not begin with a line feed, so that its first code does not either
    rw [normalizeLines]
    intro ds hds
    cases cs with
    | nil => cases hds
    | cons d cs =>
      rw [List.flatMap_cons] at hds
      have hd : d ≠ '\n' := fun hd => hcs cs (by rw [hd])
      unfold escapeTextChar at hds
      split at hds <;> simp_all
  | case4 c cs _ hc ih =>
    rw [List.flatMap_cons, normalizeLines_append (return_notMem_escapeTextChar hc), ih, List.flatMap_cons]

theorem not_cdataEnd_isInfix (cs : List Char) : ¬"]]>".toList <:+: cs.flatMap fun c => (escapeTextChar c).toList := by
  intro h
  obtain ⟨c, -, hc⟩ := List.mem_flatMap.mp (h.subset (by decide : '>' ∈ "]]>".toList))
  exact greater_notMem_escapeTextChar c hc

/-- Character data is read back with its lines ended by line feeds. -/
theorem readText_escapeText (h : IsText s) :
    readText (escapeText s) = some (String.ofList (normalizeLines s.toList)) := by
  have hexpand := expand_flatMap (f := fun c => (escapeTextChar c).toList) fun c hc =>
    readsBack_escapeTextChar (isChar_of_mem_normalizeLines h c hc)
  simp only [readText, toList_escapeText, normalizeLines_flatMap_escapeTextChar]
  rw [if_neg (not_cdataEnd_isInfix _), hexpand, Option.map_some]

theorem readValue_escapeAttribute (h : IsText s) : readValue (escapeAttribute s) = some s := by
  have hreturn : '\r' ∉ (escapeAttribute s).toList := by
    rw [toList_escapeAttribute, List.mem_flatMap]
    rintro ⟨c, -, hc⟩
    exact return_notMem_escapeAttributeChar c hc
  have hexpand := expand_flatMap (f := fun c => (escapeAttributeChar c).toList) fun c hc =>
    readsBack_escapeAttributeChar (h c hc)
  rw [readValue, normalizeLines_eq_self_iff.mpr hreturn, toList_escapeAttribute, hexpand, Option.map_some,
    String.ofList_toList]

/-- Escaped texts are read back: an attribute value as it was, and character data with its lines ended by line feeds, so
that it is as it was exactly if there is no carriage return in it. -/
theorem read_escaped (s : String) (h : IsText s) :
    readValue (escapeAttribute s) = some s ∧
      readText (escapeText s) = some (String.ofList (normalizeLines s.toList)) ∧
      (readText (escapeText s) = some s ↔ '\r' ∉ s.toList) := by
  refine ⟨readValue_escapeAttribute h, readText_escapeText h, ?_⟩
  rw [readText_escapeText h, Option.some.injEq, ← normalizeLines_eq_self_iff, ← String.toList_inj, String.toList_ofList]

theorem read_escaped_markup : IsText "&lt;\t\r\n\"]]>" ∧
    readValue (escapeAttribute "&lt;\t\r\n\"]]>") = some "&lt;\t\r\n\"]]>" ∧
    readText (escapeText "&lt;\t\r\n\"]]>") = some "&lt;\t\n\"]]>" := by
  have h : IsText "&lt;\t\r\n\"]]>" := by decide
  obtain ⟨hvalue, htext, -⟩ := read_escaped _ h
  exact ⟨h, hvalue, htext.trans (by decide)⟩

/-- A carriage return is read back as a line feed. -/
theorem not_readText_escapeText : ¬∀ s, IsText s → readText (escapeText s) = some s ∧
    readValue (escapeAttribute s) = some s := fun h =>
  absurd (h "\r" (by decide)).1 (by decide)

end Ixml.Xml
