import Ixml.Proofs.Simplify.Texts
import Ixml.Proofs.Store.Depth

/-!
# What a made-up name hints at

The name of a rule that is made up for a node hints at the first symbol that is met on the way down from it
(`Grammar.FirstSymbol`). The characters of its text are escaped (`escaped`), also if the symbol is a reference to a rule
whose name was made up itself: of that name the hint alone is taken, which has been escaped before
(`Edit.hint_of_made`).
-/

namespace Ixml

open Simplify

/-- The text of a symbol: the name of a reference, or what a terminal stands for. -/
def Label.symbolText? (l : Label) : Option String :=
  match l.kind with
  | .nonterminal .. => some l.nameText
  | _ => l.terminalText?

namespace Label

variable {l : Label} {s : String}

theorem symbolText?_of_isNonterminal (h : l.kind.isNonterminal = true) : l.symbolText? = some l.nameText := by
  unfold symbolText?
  split
  · rfl
  · rename_i hk
    cases hl : l.kind with
    | nonterminal m r => exact absurd hl (hk m r)
    | _ =>
      rw [hl] at h
      cases h

theorem symbolText?_of_terminalText? (h : l.terminalText? = some s) : l.symbolText? = some s := by
  unfold symbolText?
  split
  · rename_i hk
    rw [terminalText?, hk] at h
    cases h
  · exact h

theorem symbolText?_cases (h : l.symbolText? = some s) :
    (l.kind.isNonterminal = true ∧ l.nameText = s) ∨ l.kind.isNonterminal = false ∧ l.terminalText? = some s := by
  cases hk : l.kind.isNonterminal with
  | true => exact .inl ⟨rfl, Option.some.inj ((symbolText?_of_isNonterminal hk).symm.trans h)⟩
  | false =>
    refine .inr ⟨rfl, ?_⟩
    unfold symbolText? at h
    split at h
    · rename_i hl
      rw [hl] at hk
      cases hk
    · exact h

end Label

/-- A text of which each character other than letters, digits, the hyphen and the dot is written by its code. -/
def escaped (s : String) : String :=
  String.join (s.toList.map Edit.hintChar)

/-- A hint at a text. -/
def hintFor (s : String) : String :=
  if s = "" then "empty" else escaped s

namespace Grammar

/-- The first symbol on the way down from a node, which goes to the first child each time. -/
inductive FirstSymbol (g : Grammar) : NodeId → NodeId → Prop
  | here {i : NodeId} (hi : (g.node i).symbolText?.isSome = true) : FirstSymbol g i i
  | down {i c j : NodeId} {cs : List NodeId} (hi : (g.node i).symbolText? = none) (hc : g.children i = c :: cs)
    (hj : FirstSymbol g c j) : FirstSymbol g i j

theorem FirstSymbol.isSome {g : Grammar} {i j : NodeId} (h : g.FirstSymbol i j) :
    (g.node j).symbolText?.isSome = true := by
  induction h with
  | here hi => exact hi
  | down _ _ _ ih => exact ih

end Grammar

/-! ### Escaping -/

theorem hintChar_ne_nil (c : Char) : (Edit.hintChar c).toList ≠ [] := by
  unfold Edit.hintChar
  split <;> simp

theorem escaped_ne_empty {s : String} (h : s ≠ "") : escaped s ≠ "" := by
  intro he
  have hlist := congrArg String.toList he
  rw [escaped, String.toList_join, List.flatMap_map] at hlist
  obtain ⟨c, cs, hs⟩ := List.exists_cons_of_ne_nil fun hs => h (String.toList_inj.mp (hs : s.toList = "".toList))
  rw [hs, List.flatMap_cons] at hlist
  exact hintChar_ne_nil c (List.append_eq_nil_iff.mp hlist).1

theorem underscore_notMem_hintChar (c : Char) : '_' ∉ (Edit.hintChar c).toList := by
  have hdigit : ∀ d < 16, d.digitChar.toUpper ≠ '_' := by decide
  unfold Edit.hintChar
  split
  · rename_i hc
    rw [String.toList_singleton, List.mem_singleton]
    rintro rfl
    exact absurd hc (by decide)
  · rw [String.toList_append, List.mem_append, not_or]
    refine ⟨by decide, fun h => ?_⟩
    obtain ⟨d, hd, he⟩ := exists_digit_of_mem_upperPair h
    exact hdigit d hd he.symm

theorem underscore_notMem_escaped (s : String) : '_' ∉ (escaped s).toList := by
  rw [escaped, String.toList_join, List.flatMap_map, List.mem_flatMap]
  rintro ⟨c, -, hc⟩
  exact underscore_notMem_hintChar c hc

theorem underscore_notMem_hintFor (s : String) : '_' ∉ (hintFor s).toList := by
  unfold hintFor
  split
  · decide
  · exact underscore_notMem_escaped s

theorem hintFor_ne_empty (s : String) : hintFor s ≠ "" := by
  unfold hintFor
  split
  · decide
  · rename_i hs
    exact escaped_ne_empty hs

-- what is escaped begins with a sign that is itself escaped
example : hintFor "a.b-1" = "a.b-1" ∧ hintFor "," = "%2C" ∧ hintFor "%2C" = "%252C" := by decide +kernel

namespace Edit

variable {g : Grammar} {c i : NodeId} {n : Nat}

/-- What a hint takes from a name: of one that is made up its hint, of any other all of it. -/
def hintIn (name : String) : List Char :=
  match name.toList with
  | '$' :: rest => hintOfName rest
  | name => name

theorem firstText_succ {s : String} (h : (g.node i).symbolText? = some s) (n : Nat) :
    firstText g (n + 1) i = if (g.kind i).isNonterminal then hintIn s else s.toList := by
  rw [firstText]
  simp only [Label.symbolText?, Label.terminalText?] at h
  rw [Grammar.kind]
  cases hk : (g.node i).kind with
  | nonterminal m r =>
    rw [hk] at h
    obtain rfl := Option.some.inj h
    rfl
  | literal | insertion | charClass | range =>
    rw [hk] at h
    obtain rfl := Option.some.inj h
    simp [Construct.isNonterminal]
  | _ =>
    rw [hk] at h
    cases h

theorem firstText_succ_of_eq_none (h : (g.node i).symbolText? = none) (n : Nat) :
    firstText g (n + 1) i = match g.children i with
      | [] => []
      | c :: _ => firstText g n c := by
  rw [firstText, Grammar.kind]
  cases hk : (g.node i).kind <;> first
    | rfl
    | simp [Label.symbolText?, Label.terminalText?, hk] at h

theorem firstText_of_firstSymbol (h : g.FirstSymbol c i) {s : String} (hs : (g.node i).symbolText? = some s)
    (hn : g.DepthLe n c) : firstText g n c = if (g.kind i).isNonterminal then hintIn s else s.toList := by
  induction h generalizing n with
  | here _ =>
    cases n with
    | zero => exact absurd hn id
    | succ n => exact firstText_succ hs n
  | down hi hc _ ih =>
    cases n with
    | zero => exact absurd hn id
    | succ n =>
      rw [firstText_succ_of_eq_none hi, hc]
      exact ih hs (hn _ (hc ▸ List.mem_cons_self ..))

theorem firstText_eq_nil (h : ∀ i, ¬g.FirstSymbol c i) : firstText g n c = [] := by
  induction n generalizing c with
  | zero => rfl
  | succ n ih =>
    have hnone : (g.node c).symbolText? = none := by
      by_contra hsome
      exact h c (.here (Option.isSome_iff_ne_none.mpr hsome))
    rw [firstText_succ_of_eq_none hnone]
    split
    · rfl
    · rename_i hc
      exact ih fun i hi => h i (.down hnone hc hi)

theorem hint_eq (g : Grammar) (c : NodeId) :
    hint g c = hintFor (String.ofList (firstText g (g.depthBound + 1) c)) := by
  rw [hint, hintFor, escaped, String.toList_ofList]
  split
  · rename_i h
    rw [h]
    rfl
  · rename_i h
    rw [if_neg fun he => h (by simpa using congrArg String.toList he)]

theorem hint_ne_empty (g : Grammar) (c : NodeId) : hint g c ≠ "" := by
  rw [hint_eq]
  exact hintFor_ne_empty _

theorem underscore_notMem_hint (g : Grammar) (c : NodeId) : '_' ∉ (hint g c).toList := by
  rw [hint_eq]
  exact underscore_notMem_hintFor _

theorem hint_of_no_symbol (h : ∀ i, ¬g.FirstSymbol c i) : hint g c = "empty" := by
  rw [hint_eq, firstText_eq_nil h]
  rfl

/-- The hint in a name that is made up stands between the dollar sign and the last two underscores. -/
theorem hintIn_eq {h word : String} (n : Nat) (hw : '_' ∉ word.toList) :
    hintIn ("$" ++ h ++ "_" ++ toString n ++ "_" ++ word) = h.toList := by
  have hlist : ("$" ++ h ++ "_" ++ toString n ++ "_" ++ word).toList =
      '$' :: (h.toList ++ '_' :: ((toString n).toList ++ '_' :: word.toList)) := by
    simp [String.toList_append]
  have hdrop {cs : List Char} (hcs : '_' ∉ cs) (ds : List Char) :
      (cs.reverse ++ '_' :: ds).dropWhile (· != '_') = '_' :: ds := by
    rw [List.dropWhile_append_of_pos]
    · simp
    · intro c hc
      have : c ≠ '_' := fun he => hcs (by simpa [he] using hc)
      simpa using this
  have hreverse : (h.toList ++ '_' :: ((toString n).toList ++ '_' :: word.toList)).reverse =
      word.toList.reverse ++ '_' :: ((toString n).toList.reverse ++ '_' :: h.toList.reverse) := by
    simp
  rw [hintIn, hlist]
  simp only [hintOfName]
  rw [hreverse, hdrop hw]
  simp only
  rw [hdrop (underscore_notMem_repr n)]
  simp

theorem hintIn_emptyRule : hintIn emptyRule = "empty".toList := by
  decide +kernel

theorem hintIn_of_not_isMade {name : String} (h : ¬IsMade name) : hintIn name = name.toList := by
  rw [hintIn]
  split
  · rename_i hl
    exact absurd (by rw [IsMade, hl]; rfl) h
  · rfl

section Symbols

variable (hd : g.DepthLe g.depthBound c) (h : g.FirstSymbol c i) {s : String}
  (hs : (g.node i).symbolText? = some s)
include hd h hs

theorem hint_of_firstSymbol :
    hint g c = hintFor (String.ofList (if (g.kind i).isNonterminal then hintIn s else s.toList)) := by
  rw [hint_eq, firstText_of_firstSymbol h hs hd.succ]

/-- A hint at a symbol that is no reference to a rule with a made-up name is its text, escaped once. -/
theorem hint_of_symbol (hm : (g.kind i).isNonterminal = true → ¬IsMade s) : hint g c = hintFor s := by
  rw [hint_of_firstSymbol hd h hs]
  split
  · rename_i hk
    rw [hintIn_of_not_isMade (hm hk), String.ofList_toList]
  · rw [String.ofList_toList]

/-- A hint at a reference to a rule with a made-up name is the hint in that name, escaped once more. -/
theorem hint_of_made {t word : String} {m : Nat} (hk : (g.kind i).isNonterminal = true) (hw : '_' ∉ word.toList)
    (hname : s = "$" ++ t ++ "_" ++ toString m ++ "_" ++ word) : hint g c = hintFor t := by
  rw [hint_of_firstSymbol hd h hs, if_pos hk, hname, hintIn_eq m hw, String.ofList_toList]

theorem hint_of_emptyRule (hk : (g.kind i).isNonterminal = true) (hname : s = emptyRule) : hint g c = "empty" := by
  rw [hint_of_firstSymbol hd h hs, if_pos hk, hname, hintIn_emptyRule]
  decide +kernel

end Symbols

end Edit

end Ixml
