import Ixml.Proofs.Simplify.Round

/-!
# Alternatives as rules

The first two steps of a pass split every rule into rules with one alternative (`does_splitAll`) and replace
the groups that match nothing by references to one shared rule (`does_replaceEmptyAll`).
-/

namespace Ixml.Simplify

open Layout Edit

variable {rootLabel : Label} {b g : Grammar} {F J W A B ts as : List Layout} {t u v a : Layout} {i j r p : NodeId}
  {m : Nat} {f : Frame} {z : List Frame} {l k : Label}

/-! ### Splitting rules -/

/-- The rules that split off take the label of their rule and an alternative each. -/
def SplitOff (l : Label) (rs as : List Layout) : Prop :=
  List.Forall₂ (fun r v => ∃ j, r = node j { l with name := some l.nameText } [v]) rs as

theorem does_splitOffs (h : Laid b (node p k as :: fill z (node i l ts) :: F) g) :
    Does ((as.map Layout.id).forM (splitOff i)) g fun _ g' => ∃ rs, SplitOff l rs as ∧
      Laid { b with waiting := b.waiting ++ rs.map Layout.id }
        (fill z (node i l ts) :: (rs ++ node p k [] :: F)) g' := by
  induction as generalizing g b F with
  | nil => exact .pure ⟨[], .nil, ((h.bring 1).lays), by simpa using h.bare⟩
  | cons v as ih =>
    rw [List.map_cons]
    refine Does.bind (Q := fun _ g' => ∃ j, Laid { b with waiting := b.waiting ++ [j] }
      (node p k as :: fill z (node i l ts) :: node j { l with name := some l.nameText } [v] :: F) g') ?_ ?_
    · refine (does_detach (f := ⟨p, k, [], as⟩) (z := []) h).bind fun _ g₁ h => .get ?_
      have hl := h.toLabel_eq (z := z) (i := i) (l := l) (c := ts) (by simp)
      rw [hl]
      refine (does_newNode h _).bind fun j g₂ ⟨h, _⟩ => ?_
      refine (does_append (z := []) h).bind fun _ g₃ h => ?_
      exact (does_defer ((h.bring 2).bring 2) j).mono fun _ g₄ h => ⟨j, h⟩
    · rintro _ g₁ ⟨j, h⟩
      refine (ih h).mono fun _ g₂ ⟨rs, hrs, h⟩ => ?_
      refine ⟨node j { l with name := some l.nameText } [v] :: rs, .cons ⟨j, rfl⟩ hrs, ?_, ?_⟩
      · refine h.lays.perm (List.Perm.cons _ ?_)
        classical
        rw [List.perm_iff_count]
        intro y
        simp only [List.count_append, List.count_cons]
        omega
      · simpa using h.bare

theorem body?_eq (h : Laid b F g) (hm : fill z (node i l [v]) ∈ F) (hv : v.kind = .alts ∨ v.kind = .alt) :
    body? g i = some v.id ∧ g.kind v.id = v.kind := by
  have hc := h.kids_eq hm
  obtain ⟨j, k, us⟩ := v
  have hk : g.kind j = k.kind :=
    congrArg Label.kind (h.toLabel_eq (z := ⟨i, l, [], []⟩ :: z) (i := j) (l := k) (c := us) hm)
  rw [kind_node] at hv
  refine ⟨?_, hk⟩
  rw [body?, hc]
  simp only [List.map_cons, List.map_nil, id_node, isAlts, isAlt]
  rcases hv with hv | hv <;> simp [hk, hv]

theorem does_splitRule_alts (h : Laid b (fill z (node i l [node p k (a :: as)]) :: F) g) (hk : k.kind = .alts) :
    Does (splitRule i) g fun c g' => c = true ∧ ∃ rs, SplitOff l rs as ∧
      Laid { b with waiting := b.waiting ++ rs.map Layout.id }
        (fill z (node i l [a]) :: (rs ++ node p k [] :: F)) g' := by
  obtain ⟨hbody, hkind⟩ := body?_eq h (List.mem_cons_self ..) (Or.inl hk)
  have hc := h.kids_eq (z := ⟨i, l, [], []⟩ :: z) (i := p) (l := k) (c := a :: as) (List.mem_cons_self ..)
  refine .get ?_
  rw [hbody]
  rw [id_node, kind_node, hk] at hkind
  simp only [isAlts, id_node, hkind, beq_self_eq_true, ↓reduceIte, hc, List.map_cons]
  refine (does_detach (T := node p k (a :: as)) (f := ⟨i, l, [], []⟩) (z := z) h).bind fun _ g₁ h => ?_
  refine Does.bind (Q := fun c g' => c = a.id ∧ g' = g₁) ⟨rfl, rfl⟩ fun c g' ⟨hfirst, hg⟩ => ?_
  subst hfirst hg
  refine (does_detach (f := ⟨p, k, [], as⟩) (z := []) h).bind fun _ g₂ h => ?_
  refine (does_append (T := a) (h.bring 2)).bind fun _ g₃ h => ?_
  refine (does_splitOffs (h.bring 1)).bind fun _ g₄ h => .pure ⟨rfl, h⟩

theorem does_splitRule_alt (h : Laid b (fill z (node i l [v]) :: F) g) (hv : v.kind = .alt) :
    Does (splitRule i) g fun c g' => c = false ∧ g' = g := by
  obtain ⟨hbody, hkind⟩ := body?_eq h (List.mem_cons_self ..) (Or.inr hv)
  refine .get ?_
  rw [hbody]
  have : ¬isAlts g v.id = true := by rw [isAlts, hkind, hv]; decide
  simp only [this]
  exact .pure ⟨rfl, rfl⟩

/-- What a run over the rules does: it consists of steps, and makes no rule heavier. -/
structure Splits (J W : List Layout) (m : Nat) (J' W' : List Layout) : Prop where
  steps : Relation.ReflTransGen Step ⟨J ++ W, m⟩ ⟨J' ++ W', m⟩
  length : J'.length = J.length
  load : ∀ n, (∀ t ∈ J ++ W, t.load ≤ n) → ∀ t ∈ J' ++ W', t.load ≤ n

theorem Splits.refl (J W : List Layout) (m : Nat) : Splits J W m J W :=
  ⟨.refl, rfl, fun _ h => h⟩

theorem Splits.trans {J₁ W₁ J₂ W₂ J₃ W₃ : List Layout} (h : Splits J₁ W₁ m J₂ W₂) (h' : Splits J₂ W₂ m J₃ W₃) :
    Splits J₁ W₁ m J₃ W₃ :=
  ⟨h.steps.trans h'.steps, h'.length.trans h.length, fun n hn => h'.load n (h.load n hn)⟩

/-- A rule with a single alternative. -/
def Single (t : Layout) : Prop :=
  t.kind.isRule = true → t.children.map kind = [.alt]

theorem load_split (i p : NodeId) (l k : Label) (a : Layout) (as : List Layout) :
    (node i l [a]).load ≤ (node i l [node p k (a :: as)]).load ∧
      ∀ v ∈ as, ∀ j l', (node j l' [v]).load ≤ (node i l [node p k (a :: as)]).load := by
  constructor
  · have := maxWeight_le_weight a
    simp only [load, children_node, List.flatMap_cons, List.flatMap_nil, List.append_nil, maxWeight_cons]
    omega
  · intro v hv j l'
    have h1 := maxWeight_le_weight v
    have h2 := weight_le_maxWeight hv
    simp only [load, children_node, List.flatMap_cons, List.flatMap_nil, List.append_nil, maxWeight_cons]
    omega

theorem SplitOff.isSingle {rs : List Layout} (hrs : SplitOff l rs as) (has : ∀ v ∈ as, v.kind = .alt) :
    ∀ r ∈ rs, Single r := by
  intro r hr _
  obtain ⟨w, hw, j, rfl⟩ := exists_of_forall₂ hrs hr
  simpa using has w hw

/-- A rule that is split is a step, and none of the rules that come of it is heavier. -/
theorem SplitOff.splits {D C rs : List Layout} (hrs : SplitOff l rs as) (hl : l.kind.isRule = true)
    (hk : k.kind = .alts) :
    Splits (D ++ node i l [node p k (a :: as)] :: C) W m (D ++ node i l [a] :: C) (W ++ rs) where
  steps := by
    have := Step.split (A := D) (B := C ++ W) (i := i) (b := p) (a := a) (m := m) hl hk hrs
    simpa using Relation.ReflTransGen.single this
  length := by simp
  load n hn t ht := by
    have hload := load_split i p l k a as
    have hold := hn (node i l [node p k (a :: as)]) (by simp)
    simp only [List.append_assoc, List.cons_append, List.mem_append, List.mem_cons] at ht hn
    rcases ht with ht | rfl | ht | ht | ht
    · exact hn t (Or.inl ht)
    · exact Nat.le_trans hload.1 hold
    · exact hn t (by simp [ht])
    · exact hn t (by simp [ht])
    · obtain ⟨w, hw, j, rfl⟩ := exists_of_forall₂ hrs ht
      exact Nat.le_trans (hload.2 w hw _ _) hold

theorem does_splitRule {D C : List Layout} (h : Holds rootLabel b (D ++ v :: C) W g)
    (hS : Stock.Sound ⟨D ++ v :: C ++ W, b.madeUp⟩) (hv : v.kind.isRule = true) :
    Does (splitRule v.id) g fun c g' => (c = false → g' = g) ∧ ∃ v' rs, Holds rootLabel b (D ++ v' :: C) (W ++ rs) g' ∧
      Splits (D ++ v :: C) W b.madeUp (D ++ v' :: C) (W ++ rs) ∧ (Single v' ∧ ∀ r ∈ rs, Single r) ∧
      v'.head = v.head ∧ ∀ r ∈ rs, r.kind = v.kind ∧ r.label.nameText = v.label.nameText := by
  obtain ⟨junk, h⟩ := h
  obtain ⟨i, l, ts⟩ := v
  obtain ⟨⟨hfit, -, -⟩, hts⟩ := every_node.mp (hS.proper (node i l ts) (by simp))
  rw [kind_node] at hv
  have hbody : ts.map kind = [.alts] ∨ ts.map kind = [.alt] := by
    cases hl : l.kind <;> simp [hl, Construct.isRule] at hv
    rw [hl] at hfit
    exact Construct.fits_rule hfit
  -- only a group is split: its first alternative stays, the others move to rules of their own
  rcases hbody with hbody | hbody
  · obtain ⟨⟨p, k, us⟩, rfl, hk⟩ := List.map_eq_singleton_iff.mp hbody
    rw [kind_node] at hk
    obtain ⟨⟨hfit', -, -⟩, -⟩ := every_node.mp (hts _ (List.mem_singleton_self _))
    rw [hk] at hfit'
    obtain ⟨hne, hall⟩ := Construct.fits_alts hfit'
    cases us with
    | nil => exact absurd rfl hne
    | cons a as =>
      refine (does_splitRule_alts (z := [⟨Grammar.root, rootLabel, D, C⟩]) h hk).mono fun c g' hg' => ?_
      obtain ⟨hc, rs, hrs, h'⟩ := hg'
      have halt : ∀ v ∈ as, v.kind = .alt := fun v hv =>
        hall _ (List.mem_map_of_mem (List.mem_cons_of_mem _ hv))
      refine ⟨by simp [hc], node i l [a], rs, ⟨node p k [] :: junk, ?_, ?_⟩, hrs.splits hv hk,
        ⟨fun _ => by simpa using hall _ (by simp), hrs.isSingle halt⟩, rfl, fun r hr => ?_⟩
      · refine h'.lays.perm (List.Perm.cons _ ?_)
        classical
        rw [List.perm_iff_count]
        intro y
        simp only [List.count_append, List.count_cons]
        omega
      · rw [h'.bare, List.map_append]
      · obtain ⟨w, -, j, rfl⟩ := exists_of_forall₂ hrs hr
        exact ⟨rfl, rfl⟩
  · obtain ⟨a, rfl, ha⟩ := List.map_eq_singleton_iff.mp hbody
    refine (does_splitRule_alt (z := [⟨Grammar.root, rootLabel, D, C⟩]) h ha).mono fun c g' hg' => ?_
    obtain ⟨hc, rfl⟩ := hg'
    exact ⟨fun _ => rfl, node i l [a], [], ⟨junk, by simpa using h⟩, by simpa using Splits.refl _ _ _,
      ⟨fun _ => by simp [ha], by simp⟩, rfl, by simp⟩

theorem does_splitRules {D C : List Layout} (h : Holds rootLabel b (D ++ C) W g)
    (hS : Stock.Sound ⟨D ++ C ++ W, b.madeUp⟩) (hD : ∀ t ∈ D, Single t) (hW : ∀ t ∈ W, Single t) :
    Does (anyOf splitRule ((C.filter (·.kind.isRule)).map Layout.id)) g fun c g' => (c = false → g' = g) ∧
      ∃ J' W', Holds rootLabel b J' W' g' ∧ Splits (D ++ C) W b.madeUp J' W' ∧
        (∀ t ∈ J', Single t) ∧ ∀ t ∈ W', Single t := by
  induction C generalizing D W g with
  | nil => exact .pure ⟨fun _ => rfl, D, W, by simpa using h, by simpa using Splits.refl D W _, hD, hW⟩
  | cons v C ih =>
    by_cases hv : v.kind.isRule = true
    · rw [List.filter_cons_of_pos (by simpa using hv), List.map_cons]
      refine (does_splitRule h hS hv).bind fun c g₁ ⟨hc, v', rs, h₁, hs₁, ⟨hv', hrs⟩, _⟩ => ?_
      have h₁' : Holds rootLabel b ((D ++ [v']) ++ C) (W ++ rs) g₁ := by simpa using h₁
      have hS₁ := sound_of_steps hs₁.steps hS
      refine (ih h₁' (by simpa using hS₁) ?_ ?_).bind fun d g₂ ⟨hd, J₂, W₂, h₂, hs₂, hJ₂, hW₂⟩ => .pure ?_
      · intro t ht
        rcases List.mem_append.mp ht with ht | ht
        · exact hD t ht
        · rwa [List.mem_singleton.mp ht]
      · intro t ht
        exact (List.mem_append.mp ht).elim (hW t) (hrs t)
      · refine ⟨fun hcd => ?_, J₂, W₂, h₂, ?_, hJ₂, hW₂⟩
        · rw [Bool.or_eq_false_iff] at hcd
          rw [hd hcd.2, hc hcd.1]
        · refine hs₁.trans ?_
          simpa using hs₂
    · rw [List.filter_cons_of_neg (by simpa using hv)]
      have h' : Holds rootLabel b ((D ++ [v]) ++ C) W g := by simpa using h
      have := ih h' (by simpa using hS) (fun t ht => ?_) hW
      · simpa using this
      · rcases List.mem_append.mp ht with ht | ht
        · exact hD t ht
        · rw [List.mem_singleton.mp ht]
          exact fun hr => absurd hr hv

/-- After the first step of a pass every rule has a single alternative. -/
theorem does_splitAll (h : Holds rootLabel b J [] g) (hS : Stock.Sound ⟨J, b.madeUp⟩)
    (hstart : b.start.isSome = true) :
    Does splitAll g fun c g' => (c = false → g' = g) ∧ ∃ J', Holds rootLabel b J' [] g' ∧
      Relation.ReflTransGen Step ⟨J, b.madeUp⟩ ⟨J', b.madeUp⟩ ∧ J.length ≤ J'.length ∧
      (∀ n, (∀ t ∈ J, t.load ≤ n) → ∀ t ∈ J', t.load ≤ n) ∧ ∀ t ∈ J', Single t := by
  refine .get ?_
  rw [h.rules_eq]
  refine (does_splitRules (D := []) h (by simpa using hS) (by simp) (by simp)).bind
    fun c g₁ ⟨hc, J₁, W₁, h₁, hs, hJ, hW⟩ => ?_
  refine Does.bind (Q := fun _ g' => g' = g₁.joinWaiting) rfl fun _ g₂ hg₂ => .pure ?_
  subst hg₂
  have hlen : J₁.length = J.length := hs.length
  refine ⟨fun hcf => ?_, J₁ ++ W₁, holds_joinWaiting h₁ hstart, by simpa using hs.steps, by simp [hlen],
    fun n hn => hs.load n (by simpa using hn), fun t ht => (List.mem_append.mp ht).elim (hJ t) (hW t)⟩
  rw [hc hcf, h.joinWaiting_eq]

/-! ### Groups that match nothing -/

theorem kind_replace (g : Grammar) (i j k : NodeId) : (g.replace i j).kind k = g.kind k := by
  unfold Grammar.replace
  split
  · rfl
  · simp only [Grammar.kind, Grammar.node, Grammar.setParent, Grammar.modify, Array.getD_eq_getD_getElem?,
      Array.getElem?_modify]
    split <;> split <;> split <;> cases g.nodes[k]? <;> rfl

theorem parent_replace (g : Grammar) {i j k : NodeId} (hi : k ≠ i) (hj : k ≠ j) :
    (g.replace i j).parent k = g.parent k := by
  unfold Grammar.replace
  split
  · rfl
  · simp only [Grammar.parent, Grammar.node, Grammar.setParent, Grammar.modify, Array.getD_eq_getD_getElem?,
      Array.getElem?_modify, hi.symm, hj.symm, ↓reduceIte]
    split <;> cases g.nodes[k]? <;> rfl

theorem children_replace {g : Grammar} {i j k p : NodeId} (hp : g.parent i = some p) (hk : k ≠ p) :
    (g.replace i j).children k = g.children k := by
  unfold Grammar.replace
  rw [hp]
  simp only [Grammar.children, Grammar.node, Grammar.setParent, Grammar.modify, Array.getD_eq_getD_getElem?,
    Array.getElem?_modify, hk.symm, ↓reduceIte]
  split <;> split <;> cases g.nodes[k]? <;> rfl

theorem node_push (g : Grammar) (l : Label) {k : NodeId} (hk : k ≠ g.next) : (g.push l).node k = g.node k := by
  have : k ≠ g.nodes.size := hk
  simp [Grammar.node, Grammar.push, Array.getD_eq_getD_getElem?, Array.getElem?_push, this]

/-- A group that matches nothing stays one when another gives way to a reference. -/
theorem isEmptyGroup_replace {name : Option String} (hi : isEmptyGroup g i = true) (hij : i ≠ j)
    (hp : g.parent j = some p) (hmem : j ∈ g.children p) (hj : isAlts g j = true)
    (hsize : ∀ k ∈ j :: p :: i :: g.children i, k ≠ g.next) :
    isEmptyGroup ((g.push { kind := .nonterminal none none, name }).replace j g.next) i = true := by
  simp only [isEmptyGroup, isAlts, isAlt, parentIs, Bool.and_eq_true, List.all_eq_true, beq_iff_eq,
    List.isEmpty_iff] at hi hj ⊢
  obtain ⟨⟨hik, hpar⟩, halts⟩ := hi
  have hne : i ≠ p := by
    rintro rfl
    rw [(halts j hmem).1] at hj
    cases hj
  have hkind (k : NodeId) (hk : k ≠ g.next) :
      ((g.push { kind := .nonterminal none none, name }).replace j g.next).kind k = g.kind k := by
    rw [kind_replace, Grammar.kind, node_push g _ hk, Grammar.kind]
  have hparent (k : NodeId) (hk : k ≠ g.next) (hkj : k ≠ j) :
      ((g.push { kind := .nonterminal none none, name }).replace j g.next).parent k = g.parent k := by
    rw [parent_replace _ hkj hk, Grammar.parent, node_push g _ hk, Grammar.parent]
  have hchildren (k : NodeId) (hk : k ≠ g.next) (hkp : k ≠ p) :
      ((g.push { kind := .nonterminal none none, name }).replace j g.next).children k = g.children k := by
    rw [children_replace (p := p) ?_ hkp, Grammar.children, node_push g _ hk, Grammar.children]
    rw [Grammar.parent, node_push g _ (hsize j (by simp))]
    exact hp
  have hin := hsize i (by simp)
  rw [hkind i hin, hparent i hin hij, hchildren i hin hne]
  refine ⟨⟨hik, ?_⟩, fun a ha => ?_⟩
  · cases hpi : g.parent i with
    | none => rw [hpi] at hpar; cases hpar
    | some q =>
      rw [hpi] at hpar
      rw [Option.any_some] at hpar ⊢
      rw [kind_replace]
      by_cases hq : q = g.next
      · subst hq
        simp [Grammar.kind, Grammar.node, Grammar.push, Grammar.next, Array.getD_eq_getD_getElem?,
          Construct.isRule]
      · rwa [Grammar.kind, node_push g _ hq]
  · have han := hsize a (by simp [ha])
    rw [hkind a han, hchildren a han ?_]
    · exact halts a ha
    · rintro rfl
      rw [(halts a ha).2] at hmem
      cases hmem

/-- Where a group is that matches nothing. -/
theorem exists_trail_of_isEmptyGroup (h : Holds rootLabel b J [] g) (hS : Stock.Sound ⟨J, m⟩) (hi : i ∈ idsAll J)
    (he : isEmptyGroup g i = true) : ∃ A B f z l ts, J = A ++ fill (f :: z) (node i l ts) :: B ∧
      f.label.kind.isRule = false ∧ l.kind = .alts ∧ ∀ t ∈ ts, t.kind = .alt ∧ t.children = [] := by
  obtain ⟨v, hv, hiv⟩ := mem_idsAll.mp hi
  obtain ⟨A, B, rfl⟩ := List.append_of_mem hv
  obtain ⟨z, u, rfl, rfl⟩ := exists_fill_of_mem_ids hiv
  simp only [isEmptyGroup, isAlts, isAlt, parentIs, Bool.and_eq_true, List.all_eq_true, beq_iff_eq,
    List.isEmpty_iff, h.kind_fill, h.children_fill] at he
  obtain ⟨⟨hk, hpar⟩, halts⟩ := he
  rcases h.parent_cases with ⟨rfl, -⟩ | ⟨f, us, rfl, hp, hf⟩
  · have := hS.top u (by simp)
    rw [hk] at this
    cases this
  · obtain ⟨i, l, ts⟩ := u
    rw [hp, Option.any_some, hf, Bool.not_eq_true'] at hpar
    refine ⟨A, B, f, us, l, ts, rfl, hpar, hk, fun t ht => ?_⟩
    obtain ⟨bs, as, rfl⟩ := List.append_of_mem ht
    have ht' := halts t.id (by simp)
    have h' : Holds rootLabel b (A ++ fill (⟨i, l, bs, as⟩ :: f :: us) t :: B) [] g := h
    rw [h'.kind_fill, h'.children_fill] at ht'
    exact ⟨ht'.1, by simpa using ht'.2⟩

theorem does_replaceEmpty (h : Laid b (fill (f :: z) t :: F) g) :
    Does (replaceEmpty t.id) g fun _ g' => ∃ j, j ∉ idsAll (fill (f :: z) t :: F) ∧
      Laid b (fill (f :: z) (node j (referenceLabel emptyRule false) []) :: t :: F) g' := by
  refine (does_newNode h _).bind fun j g₁ ⟨h, hj⟩ => ?_
  exact (does_replace (u := node j _ []) (h.bring 1)).mono fun _ g₂ h => ⟨j, hj, h⟩

theorem isEmptyGroup_eq_false_of_mem {k : NodeId} (h : Holds rootLabel b (A ++ fill z (node i l ts) :: B) [] g)
    (hts : ∀ t ∈ ts, t.kind = .alt ∧ t.children = []) (hk : k ∈ idsAll ts) : isEmptyGroup g k = false := by
  obtain ⟨t, ht, hkt⟩ := mem_idsAll.mp hk
  obtain ⟨hta, htc⟩ := hts t ht
  obtain ⟨bs, as, rfl⟩ := List.append_of_mem ht
  obtain ⟨q, lt, us⟩ := t
  rw [children_node] at htc
  subst htc
  rw [ids_node, idsAll_nil, List.mem_singleton] at hkt
  subst hkt
  have h' : Holds rootLabel b (A ++ fill (⟨i, l, bs, as⟩ :: z) (node k lt []) :: B) [] g := h
  have hkind : g.kind k = .alt := h'.kind_fill.trans hta
  rw [isEmptyGroup, isAlts, hkind]
  rfl

theorem mem_idsAll_of_exchanged {k : NodeId} (hk : k ∈ idsAll (A ++ fill z (node i l ts) :: B)) (hne : k ≠ i)
    (hts : k ∉ idsAll ts) : k ∈ idsAll (A ++ fill z u :: B) := by
  simp only [idsAll_append, idsAll_cons, List.mem_append, mem_ids_fill, ids_node, List.mem_cons, hne, hts,
    false_or] at hk ⊢
  tauto

/-- The other groups that match nothing are left as they are. -/
theorem isEmptyGroup_replaceEmpty {k : NodeId} (h : Holds rootLabel b (A ++ fill (f :: z) (node i l ts) :: B) [] g)
    (hl : l.kind = .alts) (hk : k ∈ idsAll (A ++ fill (f :: z) (node i l ts) :: B)) (hne : k ≠ i)
    (he : isEmptyGroup g k = true) :
    isEmptyGroup ((g.push { kind := .nonterminal none none, name := some emptyRule }).replace i g.next) k = true := by
  have hparent : g.parent i = some f.id := by
    rcases h.parent_cases with ⟨hc, -⟩ | ⟨f', us, hc, hp, -⟩
    · cases hc
    · cases hc
      exact hp
  have hframe : Holds rootLabel b (A ++ fill z (node f.id f.label (f.before ++ node i l ts :: f.after)) :: B) [] g := h
  have hchild := hframe.children_fill
  rw [id_node, children_node] at hchild
  have hold {y : NodeId} (hy : y ∈ idsAll (A ++ fill (f :: z) (node i l ts) :: B)) : y ≠ g.next :=
    Nat.ne_of_lt (h.idsAll_below hy).2
  have hi : i ∈ idsAll (A ++ fill (f :: z) (node i l ts) :: B) :=
    mem_idsAll.mpr ⟨fill (f :: z) (node i l ts), by simp, mem_ids_fill.mpr (Or.inl (id_mem_ids _))⟩
  have hf : f.id ∈ idsAll (A ++ fill (f :: z) (node i l ts) :: B) := by
    refine mem_idsAll.mpr ⟨fill (f :: z) (node i l ts), by simp, mem_ids_fill.mpr (Or.inr ?_)⟩
    simp [trailIds, trailSpots, Frame.spot]
  refine isEmptyGroup_replace he hne hparent ?_ ?_ ?_
  · rw [hchild]
    simp
  · rw [isAlts, show g.kind i = l.kind from h.kind_fill, hl]
    rfl
  · simp only [List.forall_mem_cons]
    exact ⟨hold hi, hold hf, hold hk, fun y hy => hold (h.children_below hk y hy)⟩

theorem does_replaceEmpty_next (h : Holds rootLabel b J [] g) (hS : Stock.Sound ⟨J, b.madeUp⟩)
    (hrule : ∃ r ∈ J, IsRuleNamed emptyRule r) (hi : i ∈ idsAll J) (he : isEmptyGroup g i = true) :
    Does (replaceEmpty i) g fun _ g' => ∃ J', Holds rootLabel b J' [] g' ∧
      Advances false J [] b.madeUp J' [] b.madeUp ∧
      ∀ k ∈ idsAll J, isEmptyGroup g k = true → k ≠ i → k ∈ idsAll J' ∧ isEmptyGroup g' k = true := by
  obtain ⟨A, B, f, z, l, ts, rfl, hf, hl, hts⟩ := exists_trail_of_isEmptyGroup h hS hi he
  have hgroup := h
  obtain ⟨junk, h⟩ := h
  rw [main_eq, List.cons_append] at h
  obtain ⟨j, hj, h'⟩ := does_replaceEmpty (t := node i l ts) h
  refine ⟨A ++ fill (f :: z) (node j (referenceLabel emptyRule false) []) :: B, ⟨node i l ts :: junk, ?_⟩, ?_, ?_⟩
  · rw [main_eq, List.cons_append]
    exact h'
  · have := advances_joined (W := []) (Exchange.rewrite (m := b.madeUp) (.group (r := j) hl hts))
      (.reference hj rfl) (by simpa using hS) hf (fun _ _ => by simpa using hrule)
    simpa using this
  · intro k hk hek hne
    have hkts : k ∉ idsAll ts := fun hm => by
      rw [isEmptyGroup_eq_false_of_mem hgroup hts hm] at hek
      cases hek
    exact ⟨mem_idsAll_of_exchanged hk hne hkts, isEmptyGroup_replaceEmpty hgroup hl hk hne hek⟩

theorem exists_isRuleNamed_of_outlines {J' : List Layout} {name : String} (ho : J'.map outline = J.map outline)
    (h : ∃ r ∈ J, IsRuleNamed name r) : ∃ r ∈ J', IsRuleNamed name r := by
  obtain ⟨r, hr, hkind, hname⟩ := h
  have hmem := List.mem_map_of_mem (f := outline) hr
  rw [← ho] at hmem
  obtain ⟨r', hr', ho⟩ := List.mem_map.mp hmem
  have hl : r'.label = r.label := congrArg (·.1) ho
  exact ⟨r', hr', by rwa [kind, hl], by rwa [hl]⟩

theorem does_replaceEmpties {R : List NodeId} (h : Holds rootLabel b J [] g) (hS : Stock.Sound ⟨J, b.madeUp⟩)
    (hrule : ∃ r ∈ J, IsRuleNamed emptyRule r) (hR : ∀ i ∈ R, i ∈ idsAll J ∧ isEmptyGroup g i = true)
    (hn : R.Nodup) :
    Does (R.forM replaceEmpty) g fun _ g' => ∃ J', Holds rootLabel b J' [] g' ∧
      Advances false J [] b.madeUp J' [] b.madeUp := by
  induction R generalizing g J with
  | nil => exact .pure ⟨J, h, .refl ..⟩
  | cons i R ih =>
    obtain ⟨hi, hn⟩ := List.nodup_cons.mp hn
    obtain ⟨hmem, he⟩ := hR i (List.mem_cons_self ..)
    refine (does_replaceEmpty_next h hS hrule hmem he).bind fun _ g₁ hg₁ => ?_
    obtain ⟨J₁, h₁, ha₁, hkeep⟩ := hg₁
    have hS₁ : Stock.Sound ⟨J₁, b.madeUp⟩ := by simpa using sound_of_steps ha₁.steps (by simpa using hS)
    have hrule₁ := exists_isRuleNamed_of_outlines ha₁.outlines hrule
    have hR₁ : ∀ k ∈ R, k ∈ idsAll J₁ ∧ isEmptyGroup g₁ k = true := fun k hk => by
      obtain ⟨hkm, hke⟩ := hR k (List.mem_cons_of_mem _ hk)
      exact hkeep k hkm hke fun hki => hi (hki ▸ hk)
    refine (ih h₁ hS₁ hrule₁ hR₁ hn).mono fun _ g₂ hg₂ => ?_
    obtain ⟨J₂, h₂, ha₂⟩ := hg₂
    exact ⟨J₂, h₂, ha₁.trans ha₂⟩

theorem definitions_isEmpty_iff (h : Holds rootLabel b J W g) (name : String) :
    (g.definitions name).isEmpty = true ↔ ∀ t ∈ J, ¬IsRuleNamed name t := by
  rw [List.isEmpty_iff, Grammar.definitions, h.rules_eq, List.filter_eq_nil_iff]
  constructor
  · intro hall t ht hr
    refine hall t.id (List.mem_map_of_mem (List.mem_filter.mpr ⟨ht, by simpa using hr.1⟩)) ?_
    rw [beq_iff_eq, Grammar.nameText, h.toLabel_eq ht]
    exact hr.2
  · intro hall i hi
    obtain ⟨t, ht, rfl⟩ := List.mem_map.mp hi
    obtain ⟨ht, hr⟩ := List.mem_filter.mp ht
    rw [beq_iff_eq, Grammar.nameText, h.toLabel_eq ht]
    exact fun hn => hall t ht ⟨hr, hn⟩

theorem does_addEmptyRule (h : Holds rootLabel b J [] g) (hstart : b.start.isSome = true) :
    Does addEmptyRule g fun _ g' => ∃ rs, Holds rootLabel b (J ++ rs) [] g' ∧
      Relation.ReflTransGen Step ⟨J, m⟩ ⟨J ++ rs, m⟩ ∧ (∃ r ∈ J ++ rs, IsRuleNamed emptyRule r) ∧
      (∀ r ∈ rs, Single r ∧ r.load = 0) ∧
      (rs = [] ∨ (∃ r, rs = [r] ∧ IsRuleNamed emptyRule r) ∧ ∀ t ∈ J, ¬IsRuleNamed emptyRule t) := by
  refine .get ?_
  have hd := definitions_isEmpty_iff h emptyRule
  split
  · rename_i hempty
    have hnone := hd.mp hempty
    obtain ⟨junk, h⟩ := h
    refine (does_newNode h _).bind fun r g₁ ⟨h, _⟩ => ?_
    refine (does_newNode h _).bind fun a g₂ ⟨h, _⟩ => ?_
    refine (does_append (z := []) (h.bring 1)).bind fun _ g₃ h => ?_
    refine ⟨[node r (hiddenLabel emptyRule false []) [plain .alt a []]], ⟨junk, ?_⟩, ?_, ?_, ?_,
      Or.inr ⟨⟨_, rfl, rfl, rfl⟩, hnone⟩⟩
    · exact laid_foldl_joinRule (W := [node r (hiddenLabel emptyRule false []) [plain .alt a []]]) hstart
        (h.bring 1)
    · exact .single (.shared hnone)
    · exact ⟨node r (hiddenLabel emptyRule false []) [plain .alt a []], by simp, rfl, rfl⟩
    · simp [Single, load]
  · rename_i hempty
    refine .pure ⟨[], by simpa using h, by simpa using .refl, ?_, by simp, Or.inl rfl⟩
    simpa only [not_forall, not_not, exists_prop, List.append_nil] using mt hd.mpr hempty

theorem isEmptyGroup_of_trail (h : Holds rootLabel b (A ++ fill (f :: z) (node i l ts) :: B) [] g)
    (hf : f.label.kind.isRule = false) (hl : l.kind = .alts) (hts : ∀ t ∈ ts, t.kind = .alt ∧ t.children = []) :
    isEmptyGroup g i = true := by
  have hkind := h.kind_fill
  have hchildren := h.children_fill
  have hpar : parentIs g (fun p => !(g.kind p).isRule) i = true := by
    rcases h.parent_cases with ⟨hc, -⟩ | ⟨f', us, hc, hp, hk⟩
    · cases hc
    · cases hc
      rw [id_node] at hp
      rw [parentIs, hp, Option.any_some, hk, hf]
      rfl
  rw [id_node] at hkind hchildren
  rw [kind_node] at hkind
  simp only [isEmptyGroup, isAlts, hkind, hl, hpar, hchildren, children_node, beq_self_eq_true, Bool.true_and,
    List.all_eq_true, List.mem_map, Bool.and_eq_true, isAlt, beq_iff_eq, List.isEmpty_iff]
  rintro _ ⟨t, ht, rfl⟩
  obtain ⟨bs, as, rfl⟩ := List.append_of_mem ht
  have h' : Holds rootLabel b (A ++ fill (⟨i, l, bs, as⟩ :: f :: z) t :: B) [] g := h
  rw [h'.kind_fill, h'.children_fill, (hts t ht).1, (hts t ht).2]
  exact ⟨rfl, rfl⟩

theorem isEmptyGroup_congr {g' : Grammar} {b' : Grammar} {rs : List Layout} (h : Holds rootLabel b J [] g)
    (hS : Stock.Sound ⟨J, m⟩) (h' : Holds rootLabel b' (J ++ rs) [] g') (hi : i ∈ idsAll J)
    (he : isEmptyGroup g i = true) : isEmptyGroup g' i = true := by
  obtain ⟨A, B, f, z, l, ts, rfl, hf, hl, hts⟩ := exists_trail_of_isEmptyGroup h hS hi he
  rw [List.append_assoc, List.cons_append] at h'
  exact isEmptyGroup_of_trail h' hf hl hts

/-- The groups that match nothing are still there when the shared rule has been added. -/
theorem isEmptyGroup_of_mem_belowRules {g' : Grammar} {b' : Grammar} {rs : List Layout}
    (h : Holds rootLabel b J [] g) (hS : Stock.Sound ⟨J, m⟩) (h' : Holds rootLabel b' (J ++ rs) [] g')
    (hi : i ∈ belowRules g (isEmptyGroup g)) : i ∈ idsAll (J ++ rs) ∧ isEmptyGroup g' i = true := by
  obtain ⟨⟨t, ht, -, hit⟩, he⟩ := h.mem_belowRules.mp hi
  have hmem := mem_idsAll.mpr ⟨t, ht, hit⟩
  rw [idsAll_append, List.mem_append]
  exact ⟨Or.inl hmem, isEmptyGroup_congr h hS h' hmem he⟩

theorem Single.of_outline (h : Single t) (ho : outline u = outline t) : Single u := by
  have hl : u.label = t.label := congrArg (·.1) ho
  have hk : u.children.map kind = t.children.map kind := congrArg (·.2) ho
  rw [Single, hk, kind, hl]
  exact h

theorem single_of_outlines {J' : List Layout} (ho : J'.map outline = J.map outline) (hJ : ∀ t ∈ J, Single t) :
    ∀ t ∈ J', Single t := by
  intro t ht
  have hmem := List.mem_map_of_mem (f := outline) ht
  rw [ho] at hmem
  obtain ⟨u, hu, ho⟩ := List.mem_map.mp hmem
  exact (hJ u hu).of_outline ho.symm

theorem does_replaceEmptyAll (h : Holds rootLabel b J [] g)
    (hS : Stock.Sound ⟨J, b.madeUp⟩) (hstart : b.start.isSome = true) (hJ : ∀ t ∈ J, Single t) :
    Does replaceEmptyAll g fun c g' => (c = false → g' = g) ∧ ∃ J', Holds rootLabel b J' [] g' ∧
      Relation.ReflTransGen Step ⟨J, b.madeUp⟩ ⟨J', b.madeUp⟩ ∧ J.length ≤ J'.length ∧
      (∀ n, (∀ t ∈ J, t.load ≤ n) → ∀ t ∈ J', t.load ≤ n) ∧ ∀ t ∈ J', Single t := by
  refine .get ?_
  split
  · exact .pure ⟨fun _ => rfl, J, h, .refl, Nat.le_refl _, fun _ hn => hn, hJ⟩
  · refine (does_addEmptyRule (m := b.madeUp) h hstart).bind fun _ g₁ ⟨rs, h₁, hs₁, hrule, hrs, _⟩ => ?_
    have hS₁ := sound_of_steps hs₁ hS
    refine (does_replaceEmpties h₁ hS₁ hrule (fun i hi => isEmptyGroup_of_mem_belowRules h hS h₁ hi)
      (h.nodup_belowRules _)).bind fun _ g₂ ⟨J₂, h₂, ha₂⟩ => .pure ⟨by simp, J₂, h₂, ?_, ?_, ?_, ?_⟩
    · exact hs₁.trans (by simpa using ha₂.steps)
    · rw [ha₂.length, List.length_append]
      omega
    · intro n hn
      have hb := ha₂.bounded (J ++ rs).length n (by simp) ⟨fun t ht => ?_, by simp⟩
      · simpa using hb.1
      · rw [List.append_nil] at ht
        rcases List.mem_append.mp ht with ht | ht
        · exact hn t ht
        · rw [(hrs t ht).2]
          exact Nat.zero_le n
    · refine single_of_outlines ha₂.outlines fun t ht => ?_
      exact (List.mem_append.mp ht).elim (hJ t) fun ht => (hrs t ht).1

end Ixml.Simplify
