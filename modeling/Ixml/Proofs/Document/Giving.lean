import Ixml.Proofs.Document.Drafting

/-!
# Texts that derivations give

Derivations give a text if their events do to every draft what that text does that is given once (`Draft.Gives`). A
terminal gives its own text, an insertion the one that is inserted, and derivations one after the other what they give
one after the other (`Draft.Gives.append`), since a text joins the text in front of it.
-/

namespace Ixml

theorem Derivation.eventsAll_append {ds es : List Derivation} :
    eventsAll (ds ++ es) = eventsAll ds ++ eventsAll es := by
  induction ds with
  | nil => rfl
  | cons d ds ih => rw [List.cons_append, eventsAll, eventsAll, ih, List.append_assoc]

/-- A text is refused for its first character that may not stand in a document. -/
theorem Options.checkText_append (o : Options) (s t : String) :
    o.checkText (s ++ t) = do return (← o.checkText s) ++ (← o.checkText t) := by
  unfold checkText
  by_cases ho : o.assertValidXmlCharacters
  · simp only [ho, if_true, Xml.firstInvalid?, String.toList_append, List.find?_append]
    cases s.toList.find? fun c => !Xml.isChar c with
    | some c => rfl
    | none => cases t.toList.find? fun c => !Xml.isChar c <;> rfl
  · simp only [ho]
    rfl

theorem Options.eq_of_checkText {o : Options} {s t : String} (h : o.checkText s = .ok t) : t = s := by
  unfold checkText at h
  split at h
  · cases h
  · exact (Except.ok.inj h).symm

/-! ### Texts that join -/

theorem Content.push_concat (c d : Content) (cs : List Content) : push c (cs ++ [d]) = cs ++ push c [d] := by
  induction cs with
  | nil => rfl
  | cons e cs ih =>
    rw [List.cons_append, List.cons_append, ← ih]
    cases cs <;> rfl

/-- A text that comes after a text joins it. -/
theorem Content.push_push_text (s t : String) (cs : List Content) :
    push (text t) (push (text s) cs) = push (text (s ++ t)) cs := by
  rcases cs.eq_nil_or_concat with rfl | ⟨cs, d, rfl⟩
  · rfl
  rw [List.concat_eq_append, push_concat, push_concat]
  cases d with
  | text u => simp only [push, push_concat, String.append_assoc]
  | element head children =>
    simp only [push]
    rw [List.append_cons, push_concat, push, List.append_assoc, List.singleton_append]

namespace Draft

open OpenSymbol

theorem place_place_text (s t : String) (stack : List OpenSymbol) :
    (place (.text s) stack).bind (place (.text t)) = place (.text (s ++ t)) stack := by
  induction stack with
  | nil => rfl
  | cons n stack ih =>
    cases n with
    | element symbol head children d => simp [place, Content.push_push_text]
    | attr symbol name value => simp [place, Content.allText, String.append_assoc]
    | omitted symbol | insertion symbol =>
      simp only [place, ← ih]
      cases place (.text s) stack <;> rfl

theorem place_eq_none_iff {c : Content} {stack : List OpenSymbol} :
    place c stack = none ↔ ∀ n ∈ stack, n.IsTransparent := by
  induction stack with
  | nil => simp [place]
  | cons n stack ih => cases n <;> simp [place, IsTransparent, ih]

theorem give_give_text (s t : String) (b : Draft) : give (.text t) (give (.text s) b) = give (.text (s ++ t)) b := by
  have hnone (u : String) : place (.text u) b.stack = none ↔ place (.text s) b.stack = none :=
    place_eq_none_iff.trans place_eq_none_iff.symm
  cases h : place (.text s) b.stack with
  | none => simp only [give, (hnone _).mpr h, Content.push_push_text]
  | some stack =>
    have hp : place (.text (s ++ t)) b.stack = place (.text t) stack := by rw [← place_place_text, h, Option.bind_some]
    cases h' : place (.text t) stack with
    | none => exact absurd ((hnone _).mp (hp.trans h')) (by simp [h])
    | some stack' => simp only [give, h, hp, h']

theorem giveAll_ofText_append (s t : String) (b : Draft) : giveAll (Content.ofText (s ++ t)) b =
    giveAll (Content.ofText t) (giveAll (Content.ofText s) b) := by
  by_cases hs : s = ""
  · simp [hs]
  by_cases ht : t = ""
  · simp [ht]
  have hst : s ++ t ≠ "" := by simp [hs]
  simp only [Content.ofText, String.isEmpty_iff, hs, ht, hst, if_false, giveAll, List.foldl_cons, List.foldl_nil,
    give_give_text]

/-! ### Texts of derivations -/

/-- The events of derivations do to every draft what giving a text once does. -/
def Gives (ds : List Derivation) (s : String) : Prop :=
  ∀ b : Draft, ∃ x, (giveText s).Yields b x ∧ (follow (Derivation.eventsAll ds)).Yields b x

variable {ds es : List Derivation} {s t : String} {a : Attributes}

theorem gives_iff : Gives ds s ↔ ∀ b : Draft, (follow (Derivation.eventsAll ds)).Yields b
    ((b.options.checkText s).map fun t => ((), giveAll (Content.ofText t) b)) := by
  refine forall_congr' fun b => ⟨fun ⟨x, hx, hds⟩ => ?_, fun hds => ⟨_, yields_giveText s b, hds⟩⟩
  rwa [(yields_giveText s b).unique hx]

namespace Gives

theorem nil : Gives [] "" :=
  fun b => ⟨.ok ((), b), .pure () b, .pure () b⟩

theorem matched (c : Char) (a : Attributes) : Gives [.matched c a] (a.tokenText c) := gives_iff.mpr fun b => by
  rw [Derivation.eventsAll, Derivation.events, Derivation.eventsAll, List.append_nil, follow_singleton]
  exact yields_matched c a b

/-- A nonterminal that inserts a text and derives nothing gives that text. -/
theorem insertion (ha : a.mark == '+') : Gives [.derived a []] a.insertionText := gives_iff.mpr fun b => by
  rw [Derivation.eventsAll, Derivation.events, Derivation.eventsAll, List.append_nil, List.nil_append, follow_cons,
    follow_singleton]
  have ho := yields_opens_insertion ha b
  cases hs : b.options.checkText a.insertionText with
  | error e =>
    rw [hs] at ho
    exact .bind_error ho
  | ok t =>
    rw [hs] at ho
    exact .bind_ok ho (yields_closes (n := .insertion a.name) trivial rfl _)

theorem append (hs : Gives ds s) (ht : Gives es t) : Gives (ds ++ es) (s ++ t) := gives_iff.mpr fun b => by
  rw [Derivation.eventsAll_append, follow_append, Options.checkText_append]
  have hs := gives_iff.mp hs b
  cases hc : b.options.checkText s with
  | error e =>
    rw [hc] at hs
    exact .bind_error hs
  | ok u =>
    obtain rfl := Options.eq_of_checkText hc
    rw [hc] at hs
    refine .bind_ok hs ?_
    have ht := gives_iff.mp ht (giveAll (Content.ofText u) b)
    rw [options_giveAll] at ht
    cases hc' : b.options.checkText t with
    | error e =>
      rw [hc'] at ht
      exact ht
    | ok v =>
      rw [hc'] at ht
      simp only [pure, Except.pure, bind, Except.bind, Except.map, giveAll_ofText_append]
      exact ht

theorem tokens {f : Nat → Attributes} (text : List Char) (own : Char → String)
    (h : ∀ i c, (f i).tokenText c = own c) :
    Gives (text.mapIdx fun i c => .matched c (f i)) (String.join (text.map own)) := by
  induction text generalizing f with
  | nil => exact .nil
  | cons c text ih =>
    rw [List.mapIdx_cons, List.map_cons, String.join_cons, ← h 0]
    exact (Gives.matched c (f 0)).append (ih fun i => h (i + 1))

theorem unique (hs : Gives ds s) (ht : Gives ds t) : s = t := by
  -- an open attribute takes just what is given
  let b : Draft := { options := { assertValidXmlCharacters := false } }
  have hvalue (u : String) : giveAll (Content.ofText u) { b with stack := [.attr "" "" ""] } =
      { b with stack := [.attr "" "" u] } := by
    have h := @giveAll_ofText_attr [] "" "" "" [] (fun n hn => absurd hn List.not_mem_nil) u b
    rwa [String.empty_append] at h
  have he := (gives_iff.mp hs { b with stack := [.attr "" "" ""] }).unique
    (gives_iff.mp ht { b with stack := [.attr "" "" ""] })
  simpa [Options.checkText, Except.map, hvalue, b] using he

end Gives

end Draft

end Ixml
