import Ixml.Proofs.Document.Marks
import Ixml.Proofs.Work

/-!
# Drafts give the result by recursion

A draft is made from events with a stack of the open nonterminals. `Draft.yields_follow` says what the events of
several derivations do to a draft without an open attribute: what the recursion of `Derivation.contributions`
gives comes to the place where it belongs, and nothing else changes. `Draft.yields_follow_value` says the same
below an open attribute, where only text counts.
-/

namespace Ixml

namespace Content

theorem push_merge (c : Content) (cs : List Content) : push c (merge cs) = merge (cs ++ [c]) := by
  induction cs with
  | nil => cases c <;> rfl
  | cons d cs ih =>
    simp only [List.cons_append, merge, ← ih]
    rcases hm : merge cs with _ | ⟨e, _ | ⟨e', es⟩⟩
    · cases c <;> cases d <;> simp [push]
    · cases c <;> cases d <;> cases e <;> simp [push, String.append_assoc]
    · cases c <;> cases d <;> cases e <;> simp [push]

theorem foldl_push_merge (cs ds : List Content) :
    ds.foldl (fun acc c => push c acc) (merge cs) = merge (cs ++ ds) := by
  induction ds generalizing cs with
  | nil => simp
  | cons d ds ih => rw [List.foldl_cons, push_merge, ih, List.append_assoc, List.singleton_append]

theorem foldl_push (cs : List Content) : cs.foldl (fun acc c => push c acc) [] = merge cs :=
  foldl_push_merge [] cs

@[simp] theorem merge_eq_nil {cs : List Content} : merge cs = [] ↔ cs = [] := by
  cases cs with
  | nil => simp [merge]
  | cons c cs =>
    simp only [merge, reduceCtorEq, iff_false]
    split <;> simp

@[simp] theorem isEmpty_merge (cs : List Content) : (merge cs).isEmpty = cs.isEmpty := by
  rw [Bool.eq_iff_iff, List.isEmpty_iff, List.isEmpty_iff, merge_eq_nil]

@[simp] theorem ofText_empty : ofText "" = [] := rfl

end Content

namespace ElementHead

theorem isWrapper_setAttribute {name value : String} {o o' : Option ElementHead}
    (h : setAttribute name value o = .ok o') : o'.map (·.isWrapper) = o.map (·.isWrapper) := by
  cases o with
  | none => cases h
  | some head =>
    simp only [setAttribute] at h
    split at h
    · cases h
    · cases h; rfl

end ElementHead

namespace Derivation

mutual

/-- The head that comes back is the one of the element around the part, up to its attributes. -/
theorem isWrapper_contribution {o : Options} {owner : Option ElementHead} {d : Derivation}
    {r : Option ElementHead × List Content} (h : d.contribution o owner = .ok r) :
    r.1.map (·.isWrapper) = owner.map (·.isWrapper) := by
  cases d with
  | matched c a => obtain ⟨s, rfl⟩ := eq_of_contribution_matched h; rfl
  | derived a ds =>
    rcases contribution_derived_cases h with ⟨s, r', hr, rfl⟩ | ⟨value, own, hset, rfl⟩ | ⟨r', hr, rfl | rfl⟩ |
      ⟨head, r', hr, rfl | rfl⟩
    · exact isWrapper_contributions (r := r') hr
    · exact ElementHead.isWrapper_setAttribute hset
    · exact isWrapper_contributions hr
    · exact isWrapper_contributions (r := r') hr
    · rfl
    · rfl

theorem isWrapper_contributions {o : Options} {owner : Option ElementHead} {ds : List Derivation}
    {r : Option ElementHead × List Content} (h : contributions o owner ds = .ok r) :
    r.1.map (·.isWrapper) = owner.map (·.isWrapper) := by
  cases ds with
  | nil => rw [contributions] at h; cases h; rfl
  | cons d ds =>
    obtain ⟨r₁, r₂, hd, hr, rfl⟩ := contributions_cons_eq_ok h
    exact (isWrapper_contributions hr).trans (isWrapper_contribution hd)

end

end Derivation

namespace OpenSymbol

/-- Whether contents and attributes pass it on to what is around it. -/
def IsTransparent : OpenSymbol → Prop
  | omitted _ => True
  | insertion _ => True
  | _ => False

theorem IsTransparent.isAttr {n : OpenSymbol} (h : n.IsTransparent) : n.isAttr = false := by
  cases n <;> first | rfl | exact h.elim

/-- The head of an element that is not a wrapper. -/
def ownHead : OpenSymbol → Option ElementHead
  | element _ head _ _ => if head.isWrapper then none else some head
  | _ => none

/-- Put another head on an element. -/
def withHead (h : ElementHead) : OpenSymbol → OpenSymbol
  | element s _ children d => element s h children d
  | n => n

@[simp] theorem isAttr_withHead (h : ElementHead) (n : OpenSymbol) : (n.withHead h).isAttr = n.isAttr := by
  cases n <;> rfl

theorem withHead_of_ownHead {n : OpenSymbol} {h : ElementHead} (hn : n.ownHead = some h) :
    n.withHead h = n := by
  cases n with
  | element s head children d =>
    simp only [ownHead] at hn
    split at hn
    · cases hn
    · cases hn; rfl
  | attr | omitted | insertion => rfl

theorem IsTransparent.ownHead {n : OpenSymbol} (h : n.IsTransparent) : n.ownHead = none := by
  cases n <;> first | rfl | exact h.elim

/-- The head of the nearest element that is not a wrapper. -/
def owner (stack : List OpenSymbol) : Option ElementHead :=
  stack.findSome? ownHead

/-- Put another head on the nearest element that is not a wrapper. -/
def setOwner : Option ElementHead → List OpenSymbol → List OpenSymbol
  | none, stack => stack
  | some _, [] => []
  | some h, n :: rest => if n.ownHead.isSome then n.withHead h :: rest else n :: setOwner (some h) rest

@[simp] theorem setOwner_none (stack : List OpenSymbol) : setOwner none stack = stack := by
  cases stack <;> rfl

@[simp] theorem setOwner_nil (o : Option ElementHead) : setOwner o [] = [] := by
  cases o <;> rfl

theorem owner_cons_of_none {n : OpenSymbol} (h : n.ownHead = none) (rest : List OpenSymbol) :
    owner (n :: rest) = owner rest := by
  simp [owner, h]

theorem owner_cons_of_some {n : OpenSymbol} {h : ElementHead} (hn : n.ownHead = some h)
    (rest : List OpenSymbol) : owner (n :: rest) = some h := by
  simp [owner, hn]

theorem setOwner_cons_of_none {n : OpenSymbol} (h : n.ownHead = none) (o : Option ElementHead)
    (rest : List OpenSymbol) : setOwner o (n :: rest) = n :: setOwner o rest := by
  cases o <;> simp [setOwner, h]

theorem setOwner_cons_of_some {n : OpenSymbol} {h : ElementHead} (hn : n.ownHead = some h)
    (h' : ElementHead) (rest : List OpenSymbol) :
    setOwner (some h') (n :: rest) = n.withHead h' :: rest := by
  simp [setOwner, hn]

@[simp] theorem setOwner_owner (stack : List OpenSymbol) : setOwner (owner stack) stack = stack := by
  induction stack with
  | nil => simp
  | cons n rest ih =>
    cases hn : n.ownHead with
    | none => rw [owner_cons_of_none hn, setOwner_cons_of_none hn, ih]
    | some h => rw [owner_cons_of_some hn, setOwner_cons_of_some hn, withHead_of_ownHead hn]

theorem isWrapper_owner {stack : List OpenSymbol} {h : ElementHead} (ho : owner stack = some h) :
    h.isWrapper = false := by
  obtain ⟨n, -, hn⟩ := List.exists_of_findSome?_eq_some ho
  cases n with
  | element s head children d =>
    simp only [ownHead] at hn
    split at hn
    · cases hn
    · next hw => cases hn; simpa using hw
  | attr | omitted | insertion => cases hn

theorem ownHead_withHead {n : OpenSymbol} {h h' : ElementHead} (hn : n.ownHead = some h)
    (hw : h'.isWrapper = false) : (n.withHead h').ownHead = some h' := by
  cases n with
  | element => simp [withHead, ownHead, hw]
  | attr | omitted | insertion => cases hn

theorem withHead_withHead (n : OpenSymbol) (h h' : ElementHead) :
    (n.withHead h').withHead h = n.withHead h := by
  cases n <;> rfl

/-- A head can take the place of the one that is there. -/
def Fits (o : Option ElementHead) (stack : List OpenSymbol) : Prop :=
  o.map (·.isWrapper) = (owner stack).map (·.isWrapper)

theorem owner_setOwner {o : Option ElementHead} {stack : List OpenSymbol} (h : Fits o stack) :
    owner (setOwner o stack) = o := by
  cases o with
  | none =>
    rw [Fits, Option.map_none, eq_comm, Option.map_eq_none_iff] at h
    rw [setOwner_none, h]
  | some head =>
    rw [Fits, Option.map_some, eq_comm, Option.map_eq_some_iff] at h
    obtain ⟨own, ho, hw⟩ := h
    rw [isWrapper_owner ho] at hw
    induction stack with
    | nil => cases ho
    | cons n rest ih =>
      cases hn : n.ownHead with
      | none =>
        rw [owner_cons_of_none hn] at ho
        rw [setOwner_cons_of_none hn, owner_cons_of_none hn, ih ho]
      | some h => rw [setOwner_cons_of_some hn, owner_cons_of_some (ownHead_withHead hn hw.symm)]

theorem setOwner_setOwner {o : Option ElementHead} {stack : List OpenSymbol} (h : Fits o stack)
    (o' : Option ElementHead) (h' : o'.isSome = o.isSome) :
    setOwner o' (setOwner o stack) = setOwner o' stack := by
  cases o with
  | none => rw [setOwner_none]
  | some head =>
    obtain ⟨head', rfl⟩ := Option.isSome_iff_exists.mp h'
    rw [Fits, Option.map_some, eq_comm, Option.map_eq_some_iff] at h
    obtain ⟨own, ho, hw⟩ := h
    rw [isWrapper_owner ho] at hw
    induction stack with
    | nil => cases ho
    | cons n rest ih =>
      cases hn : n.ownHead with
      | none =>
        rw [owner_cons_of_none hn] at ho
        rw [setOwner_cons_of_none hn, setOwner_cons_of_none hn, setOwner_cons_of_none hn, ih ho]
      | some h =>
        rw [setOwner_cons_of_some hn, setOwner_cons_of_some (ownHead_withHead hn hw.symm),
          setOwner_cons_of_some hn, withHead_withHead]

theorem any_isAttr_setOwner (o : Option ElementHead) (stack : List OpenSymbol) :
    (setOwner o stack).any (·.isAttr) = stack.any (·.isAttr) := by
  cases o with
  | none => simp
  | some h =>
    induction stack with
    | nil => simp
    | cons n rest ih =>
      cases hn : n.ownHead with
      | none => rw [setOwner_cons_of_none hn, List.any_cons, List.any_cons, ih]
      | some h' => rw [setOwner_cons_of_some hn, List.any_cons, List.any_cons, isAttr_withHead]

end OpenSymbol

namespace Draft

open OpenSymbol

/-! ### Giving contents -/

/-- Give contents, one after the other, to where they belong. -/
def giveAll (cs : List Content) (b : Draft) : Draft :=
  cs.foldl (fun b c => give c b) b

@[simp] theorem giveAll_nil (b : Draft) : giveAll [] b = b := rfl

theorem giveAll_append (cs ds : List Content) (b : Draft) :
    giveAll (cs ++ ds) b = giveAll ds (giveAll cs b) :=
  List.foldl_append

theorem options_giveAll (cs : List Content) (b : Draft) : (giveAll cs b).options = b.options := by
  induction cs generalizing b with
  | nil => rfl
  | cons c cs ih =>
    rw [giveAll, List.foldl_cons, ← giveAll, ih, give]
    split <;> rfl

theorem giveAll_element (cs : List Content) (b : Draft) (s : String) (head : ElementHead)
    (children : List Content) (d : Bool) (rest : List OpenSymbol) :
    giveAll cs { b with stack := .element s head children d :: rest } =
      { b with stack := .element s head (cs.foldl (fun acc c => Content.push c acc) children) d :: rest } := by
  induction cs generalizing children with
  | nil => rfl
  | cons c cs ih => exact ih (Content.push c children)

theorem place_cons_of_isTransparent {n : OpenSymbol} (h : n.IsTransparent) (c : Content)
    (stack : List OpenSymbol) : place c (n :: stack) = (place c stack).map (n :: ·) := by
  cases n <;> simp_all [IsTransparent, place]

def under (n : OpenSymbol) (b : Draft) : Draft :=
  { b with stack := n :: b.stack }

@[simp] theorem stack_under (n : OpenSymbol) (b : Draft) : (under n b).stack = n :: b.stack := rfl

@[simp] theorem options_under (n : OpenSymbol) (b : Draft) : (under n b).options = b.options := rfl

theorem give_under {n : OpenSymbol} (h : n.IsTransparent) (c : Content) (b : Draft) :
    give c (under n b) = under n (give c b) := by
  simp only [give, under, place_cons_of_isTransparent h]
  cases place c b.stack <;> rfl

theorem giveAll_under {n : OpenSymbol} (h : n.IsTransparent) (cs : List Content) (b : Draft) :
    giveAll cs (under n b) = under n (giveAll cs b) := by
  induction cs generalizing b with
  | nil => rfl
  | cons c cs ih =>
    simp only [giveAll, List.foldl_cons] at ih ⊢
    rw [give_under h, ih]

theorem giveAll_under_element (cs : List Content) (s : String) (head : ElementHead) (d : Bool) (b : Draft) :
    giveAll cs (under (.element s head [] d) b) = under (.element s head (Content.merge cs) d) b := by
  rw [under, giveAll_element, Content.foldl_push]
  rfl

/-- Below transparent symbols, text joins the value of an open attribute. -/
theorem place_append_attr {pre : List OpenSymbol} (h : ∀ n ∈ pre, n.IsTransparent) (s name value : String)
    (rest : List OpenSymbol) (t : String) :
    place (.text t) (pre ++ .attr s name value :: rest) = some (pre ++ .attr s name (value ++ t) :: rest) := by
  induction pre with
  | nil => simp [place, Content.allText]
  | cons n pre ih =>
    rw [List.forall_mem_cons] at h
    rw [List.cons_append, place_cons_of_isTransparent h.1, ih h.2]
    rfl

theorem place_setOwner (c : Content) (o : Option ElementHead) (stack : List OpenSymbol) :
    place c (setOwner o stack) = (place c stack).map (setOwner o) := by
  cases o with
  | none => cases hp : place c stack <;> simp [hp]
  | some h =>
    induction stack with
    | nil => rfl
    | cons n rest ih =>
      cases n with
      | element s head children d =>
        by_cases hw : head.isWrapper <;> simp [setOwner, place, ownHead, withHead, hw]
      | attr s name value => rfl
      | omitted s | insertion s =>
        rw [setOwner_cons_of_none rfl, place, place, ih]
        cases place c rest <;> rfl

theorem owner_place {c : Content} {stack stack' : List OpenSymbol} (h : place c stack = some stack') :
    owner stack' = owner stack := by
  induction stack generalizing stack' with
  | nil => simp [place] at h
  | cons n rest ih =>
    cases n with
    | element s head children d =>
      simp only [place, Option.some.injEq] at h
      subst h
      rfl
    | attr s name value =>
      simp only [place, Option.some.injEq] at h
      subst h
      rfl
    | omitted s =>
      obtain ⟨t, ht, rfl⟩ := Option.map_eq_some_iff.mp h
      exact (ih ht :)
    | insertion s =>
      obtain ⟨t, ht, rfl⟩ := Option.map_eq_some_iff.mp h
      exact (ih ht :)

theorem any_isAttr_place {c : Content} {stack stack' : List OpenSymbol} (h : place c stack = some stack') :
    stack'.any (·.isAttr) = stack.any (·.isAttr) := by
  induction stack generalizing stack' with
  | nil => simp [place] at h
  | cons n rest ih =>
    cases n with
    | element s head children d =>
      simp only [place, Option.some.injEq] at h
      subst h
      rfl
    | attr s name value =>
      simp only [place, Option.some.injEq] at h
      subst h
      rfl
    | omitted s =>
      obtain ⟨t, ht, rfl⟩ := Option.map_eq_some_iff.mp h
      simp only [List.any_cons, ih ht]
    | insertion s =>
      obtain ⟨t, ht, rfl⟩ := Option.map_eq_some_iff.mp h
      simp only [List.any_cons, ih ht]

def own (o : Option ElementHead) (b : Draft) : Draft :=
  { b with stack := setOwner o b.stack }

@[simp] theorem stack_own (o : Option ElementHead) (b : Draft) : (own o b).stack = setOwner o b.stack := rfl

@[simp] theorem options_own (o : Option ElementHead) (b : Draft) : (own o b).options = b.options := rfl

theorem own_own {o o' : Option ElementHead} {b : Draft} (h : Fits o b.stack) (h' : o'.isSome = o.isSome) :
    own o' (own o b) = own o' b := by
  simp only [own, setOwner_setOwner h o' h']

theorem own_under {n : OpenSymbol} (h : n.ownHead = none) (o : Option ElementHead) (b : Draft) :
    own o (under n b) = under n (own o b) := by
  simp only [own, under, setOwner_cons_of_none h]

@[simp] theorem own_owner (b : Draft) : own (owner b.stack) b = b := by
  simp [own]

theorem give_own (c : Content) (o : Option ElementHead) (b : Draft) : give c (own o b) = own o (give c b) := by
  simp only [give, own, place_setOwner]
  cases place c b.stack <;> rfl

theorem giveAll_own (cs : List Content) (o : Option ElementHead) (b : Draft) :
    giveAll cs (own o b) = own o (giveAll cs b) := by
  induction cs generalizing b with
  | nil => rfl
  | cons c cs ih =>
    simp only [giveAll, List.foldl_cons] at ih ⊢
    rw [give_own, ih]

theorem owner_giveAll (cs : List Content) (b : Draft) : owner (giveAll cs b).stack = owner b.stack := by
  induction cs generalizing b with
  | nil => rfl
  | cons c cs ih =>
    simp only [giveAll, List.foldl_cons] at ih ⊢
    rw [ih, give]
    split
    · next h => exact owner_place h
    · rfl

theorem any_isAttr_giveAll (cs : List Content) (b : Draft) :
    (giveAll cs b).stack.any (·.isAttr) = b.stack.any (·.isAttr) := by
  induction cs generalizing b with
  | nil => rfl
  | cons c cs ih =>
    simp only [giveAll, List.foldl_cons] at ih ⊢
    rw [ih, give]
    split
    · next h => exact any_isAttr_place h
    · rfl

/-! ### Events -/

/-- Take several events into account. -/
def follow (es : List DerivationEvent) : Work Draft Unit :=
  es.forM step

theorem follow_append (es es' : List DerivationEvent) :
    follow (es ++ es') = (do follow es; follow es') :=
  List.forM_append

variable {b : Draft}

theorem follow_singleton (e : DerivationEvent) : follow [e] = step e := by
  simp [follow]

theorem follow_cons (e : DerivationEvent) (es : List DerivationEvent) :
    follow (e :: es) = (do step e; follow es) :=
  rfl

@[simp] theorem checkText_empty (o : Options) : o.checkText "" = .ok "" := by
  simp [Options.checkText, Xml.firstInvalid?]

theorem yields_giveText (s : String) (b : Draft) :
    (giveText s).Yields b ((b.options.checkText s).map fun t => ((), giveAll (Content.ofText t) b)) := by
  unfold giveText
  by_cases hs : s = ""
  · subst hs
    rw [checkText_empty]
    exact .pure () b
  · have hs' : s.isEmpty = false := by simpa using hs
    simp only [hs', Options.checkText, Bool.false_eq_true, if_false]
    refine .bind_ok (.current b) ?_
    generalize (if b.options.assertValidXmlCharacters then Xml.firstInvalid? s else none) = bad
    cases bad with
    | some c => exact .throw _ b
    | none =>
      simp only [Except.map, Content.ofText, hs', Bool.false_eq_true, if_false]
      exact .update _ b

theorem yields_checkName (name : String) (b : Draft) :
    (checkName name).Yields b ((b.options.checkName name).map fun _ => ((), b)) := by
  unfold checkName Options.checkName
  refine .bind_ok (.current b) ?_
  split
  · exact .throw _ b
  · exact .pure () b

theorem yields_matched (c : Char) (a : Attributes) (b : Draft) :
    (step (.matched c a)).Yields b
      ((b.options.checkText (a.tokenText c)).map fun t => ((), giveAll (Content.ofText t) b)) := by
  simp only [step, Attributes.tokenText]
  split
  · rw [checkText_empty]
    exact .pure () b
  · exact yields_giveText _ b

/-- The end of a transparent symbol only takes it from the stack. -/
theorem yields_closes {n : OpenSymbol} (h : n.IsTransparent) {a : Attributes} (hs : n.symbol = a.name)
    (b : Draft) : (step (.closes a)).Yields (under n b) (.ok ((), b)) := by
  simp only [step]
  refine .bind_ok (.current _) (.bind_ok (.update _ _) ?_)
  simp only [hs, beq_self_eq_true, if_true]
  cases n with
  | element => exact h.elim
  | attr => exact h.elim
  | omitted => exact .pure () _
  | insertion => exact .pure () _

/-! ### Below an open attribute -/

/-- What a nonterminal opens below an open attribute. -/
def openedInside (a : Attributes) : OpenSymbol :=
  if a.mark == '+' then .insertion a.name else .omitted a.name

theorem isTransparent_openedInside (a : Attributes) : (openedInside a).IsTransparent := by
  unfold openedInside
  split <;> trivial

theorem symbol_openedInside (a : Attributes) : (openedInside a).symbol = a.name := by
  unfold openedInside
  split <;> rfl

section Value
variable {pre : List OpenSymbol} {s name v : String} {rest : List OpenSymbol}

theorem giveAll_ofText_attr (h : ∀ n ∈ pre, n.IsTransparent) (t : String) (b : Draft) :
    giveAll (Content.ofText t) { b with stack := pre ++ .attr s name v :: rest } =
      { b with stack := pre ++ .attr s name (v ++ t) :: rest } := by
  by_cases ht : t = ""
  · simp [ht]
  · simp [Content.ofText, ht, giveAll, give, place_append_attr h]

theorem yields_opens_value (h : ∀ n ∈ pre, n.IsTransparent) (a : Attributes) (b : Draft) :
    (step (.opens a)).Yields { b with stack := pre ++ .attr s name v :: rest }
      ((b.options.checkText a.ownText).map fun t =>
        ((), { b with stack := openedInside a :: (pre ++ .attr s name (v ++ t) :: rest) })) := by
  simp only [step, opened, bind_assoc]
  refine .bind_ok (.current _) ?_
  by_cases hm : a.mark == '+'
  · simp only [hm, Attributes.ownText, openedInside, if_true, bind_assoc, pure_bind]
    have hg := yields_giveText a.insertionText { b with stack := pre ++ .attr s name v :: rest }
    cases hc : b.options.checkText a.insertionText with
    | error e => rw [hc] at hg; exact .bind_error hg
    | ok t =>
      rw [hc] at hg
      refine .bind_ok hg ?_
      rw [giveAll_ofText_attr h]
      exact .update _ _
  · have hany : (pre ++ OpenSymbol.attr s name v :: rest).any (·.isAttr) = true := by
      simp [OpenSymbol.isAttr]
    simp only [hm, Attributes.ownText, openedInside, hany, Bool.false_eq_true, if_false, if_true, pure_bind,
      checkText_empty, Except.map, String.append_empty]
    exact .update _ _

end Value

mutual

theorem yields_follow_value {pre : List OpenSymbol} (h : ∀ n ∈ pre, n.IsTransparent) (s name v : String)
    (rest : List OpenSymbol) (b : Draft) (d : Derivation) :
    (follow d.events).Yields { b with stack := pre ++ .attr s name v :: rest }
      ((d.valueText b.options).map fun t => ((), { b with stack := pre ++ .attr s name (v ++ t) :: rest })) := by
  cases d with
  | matched c a =>
    have hg := yields_matched c a { b with stack := pre ++ .attr s name v :: rest }
    simp only [giveAll_ofText_attr h] at hg
    simpa only [Derivation.events, follow_singleton, Derivation.valueText] using hg
  | derived a ds =>
    rw [Derivation.events, follow_cons, follow_append, follow_singleton, Derivation.valueText]
    have ho : (step (.opens a)).Yields { b with stack := pre ++ .attr s name v :: rest } _ :=
      yields_opens_value h a b
    cases hs : b.options.checkText a.ownText with
    | error e => rw [hs] at ho; exact .bind_error ho
    | ok t =>
      rw [hs] at ho
      have hpre : ∀ n ∈ openedInside a :: pre, n.IsTransparent := by
        simpa [isTransparent_openedInside] using h
      have hds := yields_follow_values hpre s name (v ++ t) rest b ds
      refine .bind_ok ho ?_
      cases ht : Derivation.valueTexts b.options ds with
      | error e => rw [ht] at hds; exact .bind_error hds
      | ok u =>
        rw [ht] at hds
        refine .bind_ok hds ?_
        have hc := yields_closes (isTransparent_openedInside a) (symbol_openedInside a)
          { b with stack := pre ++ .attr s name (v ++ t ++ u) :: rest }
        simp only [Except.map, bind, Except.bind, pure, Except.pure, ← String.append_assoc]
        exact hc

/-- The events of several derivations put their text into the attribute that is open around them. -/
theorem yields_follow_values {pre : List OpenSymbol} (h : ∀ n ∈ pre, n.IsTransparent) (s name v : String)
    (rest : List OpenSymbol) (b : Draft) (ds : List Derivation) :
    (follow (Derivation.eventsAll ds)).Yields { b with stack := pre ++ .attr s name v :: rest }
      ((Derivation.valueTexts b.options ds).map fun t =>
        ((), { b with stack := pre ++ .attr s name (v ++ t) :: rest })) := by
  cases ds with
  | nil =>
    have hp := Work.Yields.pure (σ := Draft) () { b with stack := pre ++ .attr s name v :: rest }
    rw [Derivation.valueTexts]
    simp only [pure, Except.pure, Except.map, String.append_empty]
    exact hp
  | cons d ds =>
    rw [Derivation.eventsAll, follow_append, Derivation.valueTexts]
    have hd := yields_follow_value h s name v rest b d
    cases hs : d.valueText b.options with
    | error e => rw [hs] at hd; exact .bind_error hd
    | ok t =>
      rw [hs] at hd
      have hds := yields_follow_values h s name (v ++ t) rest b ds
      refine .bind_ok hd ?_
      cases ht : Derivation.valueTexts b.options ds with
      | error e => rw [ht] at hds; exact hds
      | ok u =>
        rw [ht] at hds
        rw [Except.map, String.append_assoc] at hds
        exact hds

end

/-! ### Outside attributes -/

theorem attach_cons_of_none {n : OpenSymbol} (h : n.ownHead = none) (name value : String)
    (rest : List OpenSymbol) : attach name value (n :: rest) = (attach name value rest).map (n :: ·) := by
  cases n with
  | element s head children d =>
    by_cases hw : head.isWrapper
    · simp [attach, hw]
    · simp [ownHead, hw] at h
  | attr | omitted | insertion => rfl

theorem attach_eq (name value : String) (stack : List OpenSymbol) :
    attach name value stack =
      (ElementHead.setAttribute name value (owner stack)).map fun o => setOwner o stack := by
  induction stack with
  | nil => rfl
  | cons n rest ih =>
    cases hn : n.ownHead with
    | none =>
      simp only [attach_cons_of_none hn, ih, owner_cons_of_none hn, setOwner_cons_of_none hn]
      cases ElementHead.setAttribute name value (owner rest) <;> rfl
    | some h =>
      rw [owner_cons_of_some hn]
      cases n with
      | element s head children d =>
        by_cases hw : head.isWrapper
        · simp [ownHead, hw] at hn
        · obtain rfl : head = h := by simpa [ownHead, hw] using hn
          by_cases hh : Assoc.has name head.attributes <;>
            simp [attach, hw, ElementHead.setAttribute, hh, Except.map, setOwner, ownHead, withHead]
      | attr | omitted | insertion => cases hn

theorem yields_opens_insertion {a : Attributes} (ha : a.mark == '+') (b : Draft) :
    (step (.opens a)).Yields b ((b.options.checkText a.insertionText).map fun t =>
      ((), under (.insertion a.name) (giveAll (Content.ofText t) b))) := by
  simp only [step, opened, bind_assoc, ha, if_true, pure_bind]
  refine .bind_ok (.current _) ?_
  have hg := yields_giveText a.insertionText b
  cases hc : b.options.checkText a.insertionText with
  | error e => rw [hc] at hg; exact .bind_error hg
  | ok t =>
    rw [hc] at hg
    exact .bind_ok hg (.update _ _)

theorem yields_opens_attr {a : Attributes} (ha : a.mark == '@') {b : Draft}
    (hb : b.stack.any (·.isAttr) = false) :
    (step (.opens a)).Yields b ((b.options.checkName a.outputName).map fun _ =>
      ((), under (.attr a.name a.outputName "") b)) := by
  have hp : (a.mark == '+') = false := by rw [eq_of_beq ha]; rfl
  simp only [step, opened, bind_assoc, hp, ha, Bool.false_eq_true, if_false, if_true]
  refine .bind_ok (.current _) ?_
  have hn := yields_checkName a.outputName b
  simp only [hb, Bool.false_eq_true, if_false, bind_assoc, pure_bind]
  cases hc : b.options.checkName a.outputName with
  | error e => rw [hc] at hn; exact .bind_error hn
  | ok _ =>
    rw [hc] at hn
    exact .bind_ok hn (.update _ _)

theorem yields_opens_hidden {a : Attributes} (ha : a.mark == '-') {b : Draft}
    (hb : b.stack.any (·.isAttr) = false) :
    (step (.opens a)).Yields b (.ok ((), under
      (if b.options.showBnfNonterminals then .element a.name a.wrapperHead [] false else .omitted a.name) b)) := by
  have hm := eq_of_beq ha
  simp only [step, opened, bind_assoc, hm]
  refine .bind_ok (.current _) ?_
  simp only [hb, show ('-' == '+') = false from rfl, show ('-' == '@') = false from rfl, beq_self_eq_true,
    Bool.false_eq_true, if_false, if_true]
  split
  · rw [pure_bind]
    exact .update _ _
  · rw [pure_bind]
    exact .update _ _

theorem yields_opens_element {a : Attributes} (hp : (a.mark == '+') = false) (hat : (a.mark == '@') = false)
    (hh : (a.mark == '-') = false) {b : Draft} (hb : b.stack.any (·.isAttr) = false) :
    (step (.opens a)).Yields b ((b.options.checkName a.outputName).map fun _ =>
      ((), under (.element a.name a.elementHead [] a.discardEmpty) b)) := by
  simp only [step, opened, bind_assoc, hp, hat, hh, Bool.false_eq_true, if_false]
  refine .bind_ok (.current _) ?_
  have hn := yields_checkName a.outputName b
  simp only [hb, Bool.false_eq_true, if_false, bind_assoc, pure_bind]
  cases hc : b.options.checkName a.outputName with
  | error e => rw [hc] at hn; exact .bind_error hn
  | ok _ =>
    rw [hc] at hn
    exact .bind_ok hn (.update _ _)

theorem yields_closes_attr (a : Attributes) (name value : String) (b : Draft) :
    (step (.closes a)).Yields (under (.attr a.name name value) b)
      (if isReserved name then .error (.reservedAttribute name)
        else (ElementHead.setAttribute name value (owner b.stack)).map fun o => ((), own o b)) := by
  simp only [step]
  refine .bind_ok (.current _) (.bind_ok (.update _ _) ?_)
  simp only [symbol, beq_self_eq_true, if_true, closed]
  split
  · exact .throw _ _
  · refine .bind_ok (.current _) ?_
    dsimp only
    rw [attach_eq]
    cases ElementHead.setAttribute name value (owner b.stack) with
    | error e => exact .throw e b
    | ok o => exact .update _ _

theorem yields_closes_element (a : Attributes) (head : ElementHead) (cs : List Content) (discard : Bool)
    (b : Draft) :
    (step (.closes a)).Yields (under (.element a.name head cs discard) b)
      (.ok ((), if discard && head.attributes.isEmpty && cs.isEmpty then b else give (.element head cs) b)) := by
  simp only [step]
  refine .bind_ok (.current _) (.bind_ok (.update _ _) ?_)
  simp only [symbol, beq_self_eq_true, if_true, closed]
  split
  · exact .detail _ _
  · exact .update _ _

theorem any_isAttr_under {n : OpenSymbol} (hn : n.isAttr = false) {b : Draft}
    (hb : b.stack.any (·.isAttr) = false) : (under n b).stack.any (·.isAttr) = false := by
  simp only [under, List.any_cons, hn, hb, Bool.or_self]

theorem own_under_element (o : Option ElementHead) {head : ElementHead} (hw : head.isWrapper = false)
    (s : String) (cs : List Content) (d : Bool) (b : Draft) :
    own o (under (.element s head cs d) b) = under (.element s (o.getD head) cs d) b := by
  cases o with
  | none => simp [own, under]
  | some h => simp [own, under, setOwner, ownHead, hw, withHead]

/-- What the recursion says of a part comes to the place where it belongs. -/
def added (b : Draft) (r : Except Error (Option ElementHead × List Content)) : Except Error (Unit × Draft) :=
  r.map fun r => ((), giveAll r.2 (own r.1 b))

/-- The events of a derivation do to a draft without an open attribute what the recursion says. -/
def Follows (d : Derivation) : Prop :=
  ∀ b : Draft, b.stack.any (·.isAttr) = false →
    (follow d.events).Yields b (added b (d.contribution b.options (owner b.stack)))

/-- The events of several derivations do to a draft without an open attribute what the recursion says. -/
def FollowsAll (ds : List Derivation) : Prop :=
  ∀ b : Draft, b.stack.any (·.isAttr) = false →
    (follow (Derivation.eventsAll ds)).Yields b
      (added b (Derivation.contributions b.options (owner b.stack) ds))

namespace Follows
variable {a : Attributes} {ds : List Derivation}

theorem insertion (ha : a.mark == '+')
    (hds : FollowsAll ds) : Follows (.derived a ds) := by
  intro b hb
  rw [Derivation.events, follow_cons, follow_append, follow_singleton, Derivation.contribution, if_pos ha]
  have ho := yields_opens_insertion ha b
  cases hs : b.options.checkText a.insertionText with
  | error e => rw [hs] at ho; exact .bind_error ho
  | ok t =>
    rw [hs] at ho
    refine .bind_ok ho ?_
    have hi := hds (under (.insertion a.name) (giveAll (Content.ofText t) b))
      (any_isAttr_under rfl ((any_isAttr_giveAll _ b).trans hb))
    rw [stack_under, options_under, owner_cons_of_none rfl, owner_giveAll, options_giveAll] at hi
    cases hr : Derivation.contributions b.options (owner b.stack) ds with
    | error e => rw [hr] at hi; exact .bind_error hi
    | ok r =>
      rw [hr] at hi
      refine .bind_ok hi ?_
      have hn : (OpenSymbol.insertion a.name).IsTransparent := trivial
      have hc := yields_closes hn (a := a) rfl (giveAll r.2 (own r.1 (giveAll (Content.ofText t) b)))
      rw [← giveAll_under hn, ← own_under rfl] at hc
      simp only [added, Except.map, bind, Except.bind, pure, Except.pure, giveAll_append, giveAll_own]
      simp only [giveAll_own] at hc
      exact hc

theorem attr (ha : a.mark == '@') : Follows (.derived a ds) := by
  intro b hb
  have hp : ¬(a.mark == '+') = true := by rw [eq_of_beq ha]; decide
  rw [Derivation.events, follow_cons, follow_append, follow_singleton, Derivation.contribution, if_neg hp,
    if_pos ha]
  have ho := yields_opens_attr ha hb
  cases hs : b.options.checkName a.outputName with
  | error e => rw [hs] at ho; exact .bind_error ho
  | ok _ =>
    rw [hs] at ho
    refine .bind_ok ho ?_
    have hnone : ∀ n ∈ ([] : List OpenSymbol), n.IsTransparent := by simp
    have hv := yields_follow_values hnone a.name a.outputName "" b.stack b ds
    cases hr : Derivation.valueTexts b.options ds with
    | error e => rw [hr] at hv; exact .bind_error hv
    | ok value =>
      rw [hr] at hv
      refine .bind_ok hv ?_
      have hc := yields_closes_attr a a.outputName value b
      simp only [bind, Except.bind, String.empty_append]
      split
      · next hres => rw [if_pos hres] at hc; exact hc
      · next hres =>
        rw [if_neg hres] at hc
        cases hset : ElementHead.setAttribute a.outputName value (owner b.stack) with
        | error e => rw [hset] at hc; exact hc
        | ok o => rw [hset] at hc; exact hc

theorem hidden (ha : a.mark == '-')
    (hds : FollowsAll ds) : Follows (.derived a ds) := by
  intro b hb
  have hp : ¬(a.mark == '+') = true := by rw [eq_of_beq ha]; decide
  have hat : ¬(a.mark == '@') = true := by rw [eq_of_beq ha]; decide
  rw [Derivation.events, follow_cons, follow_append, follow_singleton, Derivation.contribution, if_neg hp,
    if_neg hat, if_pos ha]
  refine .bind_ok (yields_opens_hidden ha hb) ?_
  by_cases hw : b.options.showBnfNonterminals
  · simp only [hw, if_true]
    have hi := hds (under (.element a.name a.wrapperHead [] false) b) (any_isAttr_under rfl hb)
    rw [stack_under, options_under, owner_cons_of_none rfl] at hi
    cases hr : Derivation.contributions b.options (owner b.stack) ds with
    | error e => rw [hr] at hi; exact .bind_error hi
    | ok r =>
      rw [hr] at hi
      refine .bind_ok hi ?_
      have hc := yields_closes_element a a.wrapperHead (Content.merge r.2) false (own r.1 b)
      rw [← giveAll_under_element, ← own_under rfl] at hc
      exact hc
  · simp only [hw, if_false, Bool.false_eq_true]
    have hi := hds (under (.omitted a.name) b) (any_isAttr_under rfl hb)
    rw [stack_under, options_under, owner_cons_of_none rfl] at hi
    cases hr : Derivation.contributions b.options (owner b.stack) ds with
    | error e => rw [hr] at hi; exact .bind_error hi
    | ok r =>
      rw [hr] at hi
      refine .bind_ok hi ?_
      have hn : (OpenSymbol.omitted a.name).IsTransparent := trivial
      have hc := yields_closes hn (a := a) rfl (giveAll r.2 (own r.1 b))
      rw [← giveAll_under hn, ← own_under rfl] at hc
      exact hc

theorem element (hp : ¬(a.mark == '+') = true) (hat : ¬(a.mark == '@') = true) (hh : ¬(a.mark == '-') = true)
    (hds : FollowsAll ds) : Follows (.derived a ds) := by
  intro b hb
  rw [Derivation.events, follow_cons, follow_append, follow_singleton, Derivation.contribution, if_neg hp,
    if_neg hat, if_neg hh]
  have ho := yields_opens_element (by simpa using hp) (by simpa using hat) (by simpa using hh) hb
  cases hs : b.options.checkName a.outputName with
  | error e => rw [hs] at ho; exact .bind_error ho
  | ok _ =>
    rw [hs] at ho
    refine .bind_ok ho ?_
    have hi := hds (under (.element a.name a.elementHead [] a.discardEmpty) b) (any_isAttr_under rfl hb)
    rw [stack_under, options_under, owner_cons_of_some rfl] at hi
    cases hr : Derivation.contributions b.options (some a.elementHead) ds with
    | error e => rw [hr] at hi; exact .bind_error hi
    | ok r =>
      rw [hr] at hi
      refine .bind_ok hi ?_
      have hc := yields_closes_element a (r.1.getD a.elementHead) (Content.merge r.2) a.discardEmpty b
      rw [← giveAll_under_element, ← own_under_element r.1 (rfl : a.elementHead.isWrapper = false),
        Content.isEmpty_merge] at hc
      simp only [bind, Except.bind, pure, Except.pure]
      split
      · next hd =>
        rw [if_pos hd] at hc
        simp only [added, Except.map, giveAll_nil, own_owner]
        exact hc
      · next hd =>
        rw [if_neg hd] at hc
        simp only [added, Except.map, own_owner]
        exact hc

end Follows

mutual

theorem follows (d : Derivation) : Follows d := by
  cases d with
  | matched c a =>
    intro b _
    have hm := yields_matched c a b
    rw [Derivation.events, follow_singleton, Derivation.contribution]
    cases hc : b.options.checkText (a.tokenText c) with
    | error e => rw [hc] at hm; exact hm
    | ok t =>
      rw [hc] at hm
      simp only [added, Except.map, bind, Except.bind, pure, Except.pure, own_owner]
      exact hm
  | derived a ds =>
    have hds := followsAll ds
    by_cases hp : a.mark == '+'
    · exact .insertion hp hds
    by_cases hat : a.mark == '@'
    · exact .attr hat
    by_cases hh : a.mark == '-'
    · exact .hidden hh hds
    exact .element hp hat hh hds

/-- The events of several derivations give to a draft what the recursion says, in the place where it belongs. -/
theorem followsAll (ds : List Derivation) : FollowsAll ds := by
  intro b hb
  cases ds with
  | nil =>
    rw [Derivation.contributions]
    simp only [added, pure, Except.pure, Except.map, own_owner]
    exact .pure () b
  | cons d ds =>
    rw [Derivation.eventsAll, follow_append, Derivation.contributions]
    have hd := follows d b hb
    cases hr : d.contribution b.options (owner b.stack) with
    | error e => rw [hr] at hd; exact .bind_error hd
    | ok r =>
      rw [hr] at hd
      refine .bind_ok hd ?_
      have hw : Fits r.1 b.stack := Derivation.isWrapper_contribution hr
      have hi := followsAll ds (giveAll r.2 (own r.1 b))
        ((any_isAttr_giveAll _ _).trans ((any_isAttr_setOwner _ _).trans hb))
      rw [owner_giveAll, stack_own, owner_setOwner hw, options_giveAll, options_own] at hi
      simp only [bind, Except.bind]
      cases hr' : Derivation.contributions b.options r.1 ds with
      | error e => rw [hr'] at hi; exact hi
      | ok r' =>
        rw [hr'] at hi
        simp only [added, Except.map, pure, Except.pure, giveAll_append]
        have hsome : r'.1.isSome = r.1.isSome := by
          simpa using congrArg Option.isSome (Derivation.isWrapper_contributions hr')
        rw [added, Except.map, ← giveAll_own, own_own hw hsome] at hi
        exact hi

end

theorem top_giveAll {b : Draft} (hs : b.stack = []) (cs : List Content) :
    giveAll cs b = { b with top := cs.foldl (fun acc c => Content.push c acc) b.top } := by
  induction cs generalizing b with
  | nil => rfl
  | cons c cs ih =>
    have hg : give c b = { b with top := Content.push c b.top } := by
      simp only [give, hs, place]
    rw [giveAll, List.foldl_cons, ← giveAll, hg]
    exact ih (b := { b with top := Content.push c b.top }) hs

theorem yields_finish {b : Draft} (hs : b.stack = []) (undecided chosen : Bool) :
    (finish undecided chosen).Yields b
      (match b.top with
        | [.element head children] =>
          .ok (b.document (b.states (if b.options.strictAmbiguity then chosen else undecided)) head children, b)
        | _ => .error .notSingleRooted) := by
  unfold finish
  refine .bind_ok (.current b) ?_
  rw [hs]
  split
  · next h => cases h
  · next h =>
    simp only [h]
    exact .bind_ok (.detail _ b) (.pure _ b)
  · next hne =>
    split
    · next h => exact (hne _ _ h).elim
    · exact .throw _ b

/-- What a draft without open symbols comes to from the events of derivations: the document of their root. -/
theorem verdict_follow_finish (b : Draft) (hs : b.stack = []) (ht : b.top = []) (undecided chosen : Bool)
    (ds : List Derivation) :
    (Work.perform (do follow (Derivation.eventsAll ds); finish undecided chosen) b).1 =
      (Derivation.root b.options ds).map fun r =>
        b.document (b.states (if b.options.strictAmbiguity then chosen else undecided)) r.1 r.2 := by
  have hf := followsAll ds b (by rw [hs]; rfl)
  rw [hs] at hf
  rw [Derivation.root]
  cases hr : Derivation.contributions b.options none ds with
  | error e =>
    rw [show owner [] = none from rfl, hr] at hf
    exact (Work.Yields.bind_error hf).perform
  | ok r =>
    rw [show owner [] = none from rfl, hr, added, Except.map, own, hs, setOwner_nil, top_giveAll rfl, ht,
      Content.foldl_push] at hf
    refine (Work.Yields.bind_ok hf (yields_finish rfl undecided chosen)).perform.trans ?_
    simp only [bind, Except.bind]
    rcases Content.merge r.2 with _ | ⟨_ | _, _ | _⟩ <;> rfl

end Draft

end Ixml
