import Ixml.Proofs.Language.Derivations

/-!
# Hidden nonterminals

Unless hidden nonterminals are shown, what a hidden node gives is what its parts give, so that a derivation has the
root of what is left of it without hidden nodes (`Derivation.root_readAll`).
-/

namespace Ixml

/-- Read derivations without their hidden nodes, whose parts stand in their places. -/
def Reading.visible : Reading Derivation where
  token c a := [.matched c a]
  node a ds := if a.mark = '-' then ds else [.derived a ds]

theorem Reading.seesThrough_visible : Reading.visible.SeesThrough := fun _ _ ha => if_pos ha

namespace Derivation

variable {o : Options} {owner : Option ElementHead} {d : Derivation} {ds es : List Derivation} {a : Attributes}

theorem contributions_append : contributions o owner (ds ++ es) =
    contributions o owner ds >>= fun p => (contributions o p.1 es).map fun q => (q.1, p.2 ++ q.2) := by
  induction ds generalizing owner with
  | nil =>
    rw [List.nil_append, contributions]
    simp only [pure, Except.pure, bind, Except.bind, List.nil_append]
    cases contributions o owner es <;> rfl
  | cons d ds ih =>
    rw [List.cons_append, contributions, contributions]
    cases contribution o owner d with
    | error e => rfl
    | ok p =>
      simp only [bind, Except.bind, ih]
      cases contributions o p.1 ds with
      | error e => rfl
      | ok q =>
        simp only [pure, Except.pure]
        cases contributions o q.1 es with
        | error e => rfl
        | ok s => simp only [Except.map, List.append_assoc]

theorem contributions_singleton : contributions o owner [d] = contribution o owner d := by
  rw [contributions]
  cases contribution o owner d with
  | error e => rfl
  | ok p => simp [bind, Except.bind, pure, Except.pure, contributions]

theorem contributions_cons : contributions o owner (d :: ds) =
    contribution o owner d >>= fun p => (contributions o p.1 ds).map fun q => (q.1, p.2 ++ q.2) := by
  rw [← List.singleton_append, contributions_append, contributions_singleton]

theorem valueTexts_append :
    valueTexts o (ds ++ es) = valueTexts o ds >>= fun s => (valueTexts o es).map fun t => s ++ t := by
  induction ds with
  | nil =>
    rw [List.nil_append, valueTexts]
    cases valueTexts o es <;> simp [bind, Except.bind, pure, Except.pure, Except.map]
  | cons d ds ih =>
    rw [List.cons_append, valueTexts, valueTexts]
    cases valueText o d with
    | error e => rfl
    | ok s =>
      simp only [bind, Except.bind, ih]
      cases valueTexts o ds with
      | error e => rfl
      | ok t =>
        simp only [pure, Except.pure]
        cases valueTexts o es with
        | error e => rfl
        | ok u => simp only [Except.map, String.append_assoc]

theorem valueTexts_singleton : valueTexts o [d] = valueText o d := by
  rw [valueTexts]
  cases valueText o d with
  | error e => rfl
  | ok s => simp [bind, Except.bind, pure, Except.pure, valueTexts]

theorem contribution_congr (h : ∀ own, contributions o own ds = contributions o own es)
    (hv : valueTexts o ds = valueTexts o es) :
    contribution o owner (.derived a ds) = contribution o owner (.derived a es) := by
  simp only [contribution, h, hv]

/-- A hidden node gives what its parts give. -/
theorem contribution_hidden (ho : o.showBnfNonterminals = false) (ha : a.mark = '-') :
    contribution o owner (.derived a ds) = contributions o owner ds := by
  simp only [contribution, ha, ho]
  cases contributions o owner ds <;> rfl

theorem valueText_hidden (ha : a.mark = '-') : valueText o (.derived a ds) = valueTexts o ds := by
  have hown : o.checkText a.ownText = .ok "" := by
    simp only [Attributes.ownText, ha]
    rw [if_neg (by decide), Options.checkText]
    split
    · rename_i c hc
      split at hc <;> cases hc
    · rfl
  rw [valueText, hown]
  cases valueTexts o ds <;> simp [bind, Except.bind, pure, Except.pure]

mutual

theorem valueTexts_read : ∀ d : Derivation, valueTexts o (d.read Reading.visible) = valueText o d
  | .matched c a => valueTexts_singleton
  | .derived a ds => by
    show valueTexts o (if a.mark = '-' then _ else _) = _
    split
    · rename_i ha
      rw [valueTexts_readAll ds, valueText_hidden ha]
    · rw [valueTexts_singleton, valueText, valueText, valueTexts_readAll ds]

theorem valueTexts_readAll : ∀ ds : List Derivation, valueTexts o (readAll Reading.visible ds) = valueTexts o ds
  | [] => rfl
  | d :: ds => by
    rw [readAll, valueTexts_append, valueTexts_read d, valueTexts_readAll ds, valueTexts]
    cases valueText o d with
    | error e => rfl
    | ok s => cases valueTexts o ds <;> rfl

end

mutual

theorem contributions_read (ho : o.showBnfNonterminals = false) :
    ∀ (owner : Option ElementHead) (d : Derivation),
      contributions o owner (d.read Reading.visible) = contribution o owner d
  | owner, .matched c a => contributions_singleton
  | owner, .derived a ds => by
    show contributions o owner (if a.mark = '-' then _ else _) = _
    split
    · rename_i ha
      rw [contributions_readAll ho owner ds, contribution_hidden ho ha]
    · rw [contributions_singleton]
      exact contribution_congr (fun own => contributions_readAll ho own ds) (valueTexts_readAll ds)

/-- Hidden nodes may give way to their parts. -/
theorem contributions_readAll (ho : o.showBnfNonterminals = false) :
    ∀ (owner : Option ElementHead) (ds : List Derivation),
      contributions o owner (readAll Reading.visible ds) = contributions o owner ds
  | _, [] => rfl
  | owner, d :: ds => by
    rw [readAll, contributions_append, contributions_read ho owner d, contributions_cons]
    refine congrArg _ (funext fun p => ?_)
    rw [contributions_readAll ho p.1 ds]

end

theorem inputAll_append : inputAll (ds ++ es) = inputAll ds ++ inputAll es := by
  induction ds with
  | nil => rfl
  | cons d ds ih => rw [List.cons_append, inputAll, inputAll, ih, List.append_assoc]

mutual

theorem inputAll_read : ∀ d : Derivation, inputAll (d.read Reading.visible) = d.input
  | .matched c a => rfl
  | .derived a ds => by
    show inputAll (if a.mark = '-' then _ else _) = _
    split
    · rw [inputAll_readAll ds, input]
    · rw [inputAll, input, inputAll_readAll ds, input, inputAll, List.append_nil]

theorem inputAll_readAll : ∀ ds : List Derivation, inputAll (readAll Reading.visible ds) = inputAll ds
  | [] => rfl
  | d :: ds => by
    rw [readAll, inputAll_append, inputAll_read d, inputAll_readAll ds, inputAll]

end

theorem root_readAll (ho : o.showBnfNonterminals = false) :
    root o [.derived a (readAll Reading.visible ds)] = root o [.derived a ds] := by
  rw [root, root, contributions_singleton, contributions_singleton,
    contribution_congr (fun own => contributions_readAll ho own ds) (valueTexts_readAll ds)]

end Derivation

end Ixml
