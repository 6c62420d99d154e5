import Ixml.Proofs.Grammar.Shape
import Ixml.Proofs.Simplify.Names
import Mathlib.Logic.Relation

/-!
# What a simplification does to a grammar

Every change that a pass makes is a `Step` on the layouts of the rules: a construct gives way to a reference
to a new rule (`Unfolds`), or to a simpler construct (`Rewrites`), an alternative is split off, or the shared
rule that matches nothing is added. The theory of simplification speaks of these steps only. Each of them
keeps the grammar `Sound`, and by `Exchange.weight_lt` and `Exchange.weight_le` new rules are lighter than
the constructs that they come from.
-/

namespace Ixml

namespace Layout

/-- A node of a given kind with nothing else on its label. -/
def plain (kind : Construct) (i : NodeId) (ts : List Layout) : Layout :=
  node i { kind } ts

@[simp] theorem kind_plain (k : Construct) (i : NodeId) (ts : List Layout) : (plain k i ts).kind = k := rfl

@[simp] theorem children_plain (k : Construct) (i : NodeId) (ts : List Layout) :
    (plain k i ts).children = ts := rfl

@[simp] theorem erase_plain (k : Construct) (i : NodeId) (ts : List Layout) :
    (plain k i ts).erase = .node { kind := k } (ts.map erase) := by
  simp [plain]

end Layout

namespace Simplify

open Layout

/-- The label of a reference to a rule that is made up. -/
def referenceLabel (name : String) (optional : Bool) : Label :=
  { kind := .nonterminal none none, name := some name, isOptional := optional }

@[simp] theorem isFactor_referenceLabel (name : String) (optional : Bool) :
    (referenceLabel name optional).kind.isFactor = true := rfl

/-- The label of a rule that is made up. -/
def hiddenLabel (name : String) (optional : Bool) (pragmas : List Pragma) : Label :=
  { kind := .rule .hidden none, name := some name, isOptional := optional, pragmas }

/-- `Unfolds X t b` says that a rule named `X` with the body `b` stands for the construct `t`. -/
inductive Unfolds (X : String) : Layout → Layout → Prop
  | starSepOption {i a b o p : NodeId} {l : Label} {f s : Layout} (hl : l.kind = .repeat0) :
    Unfolds X (node i l [f, s])
      (plain .alts b [plain .alt a [plain .option o [plain .repeat1 p [f, s]]]])
  | starSepEmpty {i a b c p : NodeId} {l : Label} {f s : Layout} (hl : l.kind = .repeat0) :
    Unfolds X (node i l [f, s]) (plain .alts b [plain .alt a [], plain .alt c [plain .repeat1 p [f, s]]])
  | plusSepStar {i j a b c d q : NodeId} {l m : Label} {f f' s : Layout} (hl : l.kind = .repeat1)
    (hm : m.kind = .sep) (hf : f'.erase = f.erase) :
    Unfolds X (node i l [f, node j m [s]])
      (plain .alts b [plain .alt a [f, plain .repeat0 q [plain .alts c [plain .alt d [s, f']]]]])
  | plusSepSelf {i j a b c r : NodeId} {l m : Label} {f f' s : Layout} (hl : l.kind = .repeat1)
    (hm : m.kind = .sep) (hf : f'.erase = f.erase) :
    Unfolds X (node i l [f, node j m [s]])
      (plain .alts b [plain .alt a [f], plain .alt c [f', s, node r (referenceLabel X false) []]])
  | star {i a b c r : NodeId} {l : Label} {f : Layout} (hl : l.kind = .repeat0) :
    Unfolds X (node i l [f])
      (plain .alts b [plain .alt a [], plain .alt c [f, node r (referenceLabel X false) []]])
  | plus {i a b c r : NodeId} {l : Label} {f f' : Layout} (hl : l.kind = .repeat1)
    (hf : f'.erase = f.erase) :
    Unfolds X (node i l [f])
      (plain .alts b [plain .alt a [f], plain .alt c [f', node r (referenceLabel X false) []]])
  | option {i a b c : NodeId} {l : Label} {f : Layout} (hl : l.kind = .option) :
    Unfolds X (node i l [f]) (plain .alts b [plain .alt a [], plain .alt c [f]])
  | group {i : NodeId} {l : Label} {ts : List Layout} (hl : l.kind = .alts) :
    Unfolds X (node i l ts) (node i { l with pragmas := [] } ts)

/-- A construct gives way to a simpler one in its place. -/
inductive Rewrites : Layout → Layout → Prop
  | star {i o p : NodeId} {l : Label} {f : Layout} (hl : l.kind = .repeat0) :
    Rewrites (node i l [f]) (plain .option o [plain .repeat1 p [f]])
  | option {i j : NodeId} {l m : Label} (hl : l.kind = .option) (hm : m.kind.isNonterminal = true)
    (hn : m.nameText = emptyRule) : Rewrites (node i l [node j m []]) (node j m [])
  | group {i r : NodeId} {l : Label} {ts : List Layout} (hl : l.kind = .alts)
    (ht : ∀ t ∈ ts, t.kind = .alt ∧ t.children = []) :
    Rewrites (node i l ts) (node r (referenceLabel emptyRule false) [])

/-- `Exchange m t u rs m'` says that the construct `t` gives way to `u`, that the rules `rs` are new, and that
`m'` names have been made up then instead of `m`. The rule for a group takes over its pragmas. -/
inductive Exchange (m : Nat) (t : Layout) : Layout → List Layout → Nat → Prop
  | unfold {X : String} {i r : NodeId} {o : Bool} {ps : List Pragma} {b : Layout} (hX : Numbered X (m + 1))
    (h : Unfolds X t b) (hps : ps = if t.kind = .alts then t.label.pragmas else []) :
    Exchange m t (node i (referenceLabel X o) []) [node r (hiddenLabel X o ps) [b]] (m + 1)
  | rewrite {u : Layout} (h : Rewrites t u) : Exchange m t u [] m

/-- The layouts below the root and those that wait, in this order, and how many names have been made up. -/
structure Stock where
  tops : List Layout
  madeUp : Nat

/-- A rule of a given name. -/
def IsRuleNamed (name : String) (t : Layout) : Prop :=
  t.kind.isRule = true ∧ t.label.nameText = name

/-- A change of a grammar. -/
inductive Step : Stock → Stock → Prop
  | exchange {A B : List Layout} {f : Frame} {z : List Frame} {t u : Layout} {rs : List Layout} {m m' : Nat}
    (h : Exchange m t u rs m')
    (hf : f.label.kind.isRule = false)
    (hu : u.label.nameText = emptyRule → ∃ r ∈ A ++ fill (f :: z) u :: B, IsRuleNamed emptyRule r) :
    Step ⟨A ++ fill (f :: z) t :: B, m⟩ ⟨A ++ fill (f :: z) u :: B ++ rs, m'⟩
  | split {A B rs : List Layout} {i b : NodeId} {l k : Label} {a : Layout} {as : List Layout} {m : Nat}
    (hl : l.kind.isRule = true) (hk : k.kind = .alts)
    (hrs : List.Forall₂ (fun r v => ∃ j, r = node j { l with name := some l.nameText } [v]) rs as) :
    Step ⟨A ++ node i l [node b k (a :: as)] :: B, m⟩ ⟨A ++ node i l [a] :: B ++ rs, m⟩
  | shared {T : List Layout} {r a : NodeId} {m : Nat} (hT : ∀ t ∈ T, ¬IsRuleNamed emptyRule t) :
    Step ⟨T, m⟩ ⟨T ++ [node r (hiddenLabel emptyRule false []) [plain .alt a []]], m⟩

/-! ### Shape and names -/

/-- The children of a node fit, and a made-up name belongs to a hidden rule or a plain reference; it is the
one of the shared rule or carries one of the first `m` numbers. -/
structure Proper (m : Nat) (l : Label) (ks : List Construct) : Prop where
  fits : l.kind.fits ks = true
  hidden : IsMade l.nameText → l.kind = .rule .hidden none ∨ l.kind = .nonterminal none none
  number : IsMade l.nameText → l.nameText = emptyRule ∨ ∃ n ≤ m, Numbered l.nameText n

variable {X : String} {m m' : Nat} {l : Label} {ks : List Construct} {t u b : Layout} {rs ts : List Layout}
  {i : NodeId}

theorem Proper.mono (h : Proper m l ks) (hm : m ≤ m') : Proper m' l ks where
  fits := h.fits
  hidden := h.hidden
  number hl := (h.number hl).imp_right fun ⟨n, hn, hX⟩ => ⟨n, Nat.le_trans hn hm, hX⟩

theorem Proper.kind_of_isRule (h : Proper m l ks) (hn : IsMade l.nameText) (hr : l.kind.isRule = true) :
    l.kind = .rule .hidden none := by
  rcases h.hidden hn with hk | hk
  · exact hk
  · rw [hk] at hr
    cases hr

theorem Proper.kind_of_isNonterminal (h : Proper m l ks) (hn : IsMade l.nameText) (hl : l.kind.isNonterminal = true) :
    l.kind = .nonterminal none none := by
  rcases h.hidden hn with hk | hk
  · rw [hk] at hl
    cases hl
  · exact hk

theorem proper_plain {k : Construct} : Proper m { kind := k } ks ↔ k.fits ks = true := by
  have hn : ¬IsMade (Label.nameText { kind := k }) := by simp [IsMade, Label.nameText]
  exact ⟨fun h => h.fits, fun h => ⟨h, fun h' => absurd h' hn, fun h' => absurd h' hn⟩⟩

theorem proper_reference (hX : Numbered X m) (o : Bool) : Proper m (referenceLabel X o) [] where
  fits := rfl
  hidden _ := Or.inr rfl
  number _ := Or.inr ⟨m, Nat.le_refl _, hX⟩

theorem proper_hidden (hX : Numbered X m) (o : Bool) (ps : List Pragma) (hk : ks = [.alts]) :
    Proper m (hiddenLabel X o ps) ks where
  fits := by rw [hk]; rfl
  hidden _ := Or.inl rfl
  number _ := Or.inr ⟨m, Nat.le_refl _, hX⟩

theorem every_plain {k : Construct} :
    (plain k i ts).Every (Proper m) ↔ k.fits (ts.map kind) = true ∧ ∀ t ∈ ts, t.Every (Proper m) := by
  rw [plain, every_node, proper_plain]

theorem every_reference (hX : Numbered X m) (o : Bool) :
    (node i (referenceLabel X o) []).Every (Proper m) := by
  simpa using proper_reference hX o

theorem Unfolds.isCompound (h : Unfolds X t b) : t.kind.isCompound = true := by
  cases h <;> simp_all [Construct.isCompound]

theorem Unfolds.kind_body (h : Unfolds X t b) : b.kind = .alts := by
  cases h <;> first | rfl | assumption

theorem Rewrites.isCompound (h : Rewrites t u) : t.kind.isCompound = true := by
  cases h <;> simp_all [Construct.isCompound]

theorem Rewrites.isFactor (h : Rewrites t u) : u.kind.isFactor = true := by
  cases h with
  | star => rfl
  | group => rfl
  | @option i j l m hl hm hn =>
    cases hk : m.kind <;> simp_all [Construct.isNonterminal, Construct.isFactor, Construct.isFlat]

theorem Exchange.isCompound (h : Exchange m t u rs m') : t.kind.isCompound = true := by
  cases h with
  | unfold _ h _ => exact h.isCompound
  | rewrite h => exact h.isCompound

theorem Exchange.isFactor (h : Exchange m t u rs m') : u.kind.isFactor = true := by
  cases h with
  | unfold => rfl
  | rewrite h => exact h.isFactor

theorem Exchange.le (h : Exchange m t u rs m') : m ≤ m' := by
  cases h <;> simp

/-- The children of a node of the shape fit its construct, and they have the shape with more numbers too. -/
theorem fits_of_every {k : Construct} (ht : (node i l ts).Every (Proper m)) (hk : l.kind = k) (hm : m ≤ m') :
    k.fits (ts.map kind) = true ∧ ∀ t ∈ ts, t.Every (Proper m') := by
  obtain ⟨hp, hts⟩ := every_node.mp ht
  exact ⟨hk ▸ hp.fits, fun t h => (hts t h).mono fun _ _ hp => hp.mono hm⟩

theorem every_copy {f f' : Layout} (hf : f'.erase = f.erase) (h : f.Every (Proper m)) :
    f'.kind = f.kind ∧ f'.Every (Proper m) := by
  refine ⟨?_, h.of_erase_eq hf⟩
  rw [← kind_erase, hf, kind_erase]

/-- The body of a new rule has the shape, if the construct that it stands for has. -/
theorem Unfolds.every (h : Unfolds X t b) (hX : Numbered X (m + 1)) (ht : t.Every (Proper m)) :
    b.Every (Proper (m + 1)) := by
  have hm : m ≤ m + 1 := Nat.le_succ m
  cases h with
  | starSepOption hl | starSepEmpty hl =>
    obtain ⟨hfit, hts⟩ := fits_of_every ht hl hm
    simp_all [every_plain, Construct.fits, Construct.isFactor, Construct.isCompound]
  | @plusSepStar i j a b c d q l k f f' s hl hk he =>
    obtain ⟨hfit, hts⟩ := fits_of_every ht hl hm
    obtain ⟨hsfit, hss⟩ := fits_of_every (hts (node j k [s]) (by simp)) hk (Nat.le_refl _)
    have hf' := every_copy he (hts f (by simp))
    simp_all [every_plain, Construct.fits, Construct.isFactor, Construct.isCompound]
  | @plusSepSelf i j a b c r l k f f' s hl hk he =>
    obtain ⟨hfit, hts⟩ := fits_of_every ht hl hm
    obtain ⟨hsfit, hss⟩ := fits_of_every (hts (node j k [s]) (by simp)) hk (Nat.le_refl _)
    have hf' := every_copy he (hts f (by simp))
    have hr := every_reference (i := r) hX false
    simp_all [every_plain, Construct.fits]
  | @star i a b c r l f hl =>
    obtain ⟨hfit, hts⟩ := fits_of_every ht hl hm
    have hr := every_reference (i := r) hX false
    simp_all [every_plain, Construct.fits]
  | @plus i a b c r l f f' hl he =>
    obtain ⟨hfit, hts⟩ := fits_of_every ht hl hm
    have hf' := every_copy he (hts f (by simp))
    have hr := every_reference (i := r) hX false
    simp_all [every_plain, Construct.fits]
  | option hl =>
    obtain ⟨hfit, hts⟩ := fits_of_every ht hl hm
    simp_all [every_plain, Construct.fits]
  | group hl =>
    obtain ⟨hp, -⟩ := every_node.mp ht
    have hts := (fits_of_every ht hl hm).2
    exact every_node.mpr ⟨⟨hp.fits, hp.hidden, (hp.mono hm).number⟩, hts⟩

theorem Rewrites.every (h : Rewrites t u) (ht : t.Every (Proper m)) : u.Every (Proper m) := by
  cases h with
  | star hl =>
    obtain ⟨hfit, hts⟩ := fits_of_every ht hl (Nat.le_refl m)
    simp_all [every_plain, Construct.fits, Construct.isFactor, Construct.isCompound]
  | option hl hk hn => exact (every_node.mp ht).2 _ (List.mem_singleton_self _)
  | group hl hts =>
    exact every_node.mpr ⟨⟨rfl, fun _ => Or.inr rfl, fun _ => Or.inl rfl⟩, by simp⟩

theorem Exchange.every (h : Exchange m t u rs m') (ht : t.Every (Proper m)) : u.Every (Proper m') := by
  cases h with
  | unfold hX h => exact every_reference hX _
  | rewrite h => exact h.every ht

theorem Exchange.every_rules (h : Exchange m t u rs m') (ht : t.Every (Proper m)) :
    ∀ r ∈ rs, r.Every (Proper m') := by
  cases h with
  | unfold hX h =>
    rintro r hr
    rw [List.mem_singleton] at hr
    rw [hr, every_node]
    exact ⟨proper_hidden hX _ _ (by simp [h.kind_body]), by simpa using h.every hX ht⟩
  | rewrite h => simp

theorem Exchange.every_fill {f : Frame} {z : List Frame} (h : Exchange m t u rs m')
    (hf : f.label.kind.isRule = false) (ht : (fill (f :: z) t).Every (Proper m)) :
    (fill (f :: z) u).Every (Proper m') := by
  have hu := h.every ht.of_fill
  have ht := ht.mono fun _ _ hp => hp.mono h.le
  obtain ⟨hfit, hhid, hnum⟩ := ht.frame
  refine ht.fill_congr hu ⟨?_, hhid, hnum⟩
  simp only [List.map_append, List.map_cons] at hfit ⊢
  exact Construct.fits_congr hf h.isCompound h.isFactor hfit

/-! ### Sound grammars -/

/-- A grammar of the right shape: rules and prologs below the root, rules with names, and the shared rule is
there if its name occurs, and matches nothing. -/
structure Stock.Sound (S : Stock) : Prop where
  proper : ∀ t ∈ S.tops, t.Every (Proper S.madeUp)
  top : ∀ t ∈ S.tops, t.kind.isTop = true
  named : ∀ t ∈ S.tops, t.kind.isRule = true → t.label.name.isSome = true
  empty : ∀ t ∈ S.tops, IsRuleNamed emptyRule t → ∃ a k, t.children = [node a k []] ∧ k.kind = .alt
  shared : (∃ t ∈ S.tops, IsRuleNamed emptyRule t) ∨
    ∀ t ∈ S.tops, t.Every fun l _ => l.nameText ≠ emptyRule

theorem label_fill_cons (f : Frame) (z : List Frame) (t u : Layout) :
    (fill (f :: z) t).label = (fill (f :: z) u).label := by
  induction z generalizing f t u with
  | nil => rfl
  | cons f' z ih => exact ih f' _ _

theorem id_fill_cons (f : Frame) (z : List Frame) (t u : Layout) : (fill (f :: z) t).id = (fill (f :: z) u).id := by
  induction z generalizing f t u with
  | nil => rfl
  | cons f' z ih => exact ih f' _ _

theorem kind_fill_cons (f : Frame) (z : List Frame) (t u : Layout) :
    (fill (f :: z) t).kind = (fill (f :: z) u).kind :=
  congrArg Label.kind (label_fill_cons f z t u)

theorem isRuleNamed_fill_iff {f : Frame} {z : List Frame} {name : String} :
    IsRuleNamed name (fill (f :: z) t) ↔ IsRuleNamed name (fill (f :: z) u) := by
  rw [IsRuleNamed, IsRuleNamed, kind_fill_cons f z t u, label_fill_cons f z t u]

/-- A rule that matches nothing holds no construct. -/
theorem children_ne_of_isCompound {z : List Frame} {a : NodeId} {k : Label} (ht : t.kind.isCompound = true)
    (hrule : (fill z t).kind.isRule = true) (hk : k.kind = .alt) : (fill z t).children ≠ [node a k []] := by
  intro h
  have hs : top (parentOf z) t ∈ spots none (fill z t) := mem_spots_fill.mpr (Or.inl (top_mem_spots _ t))
  rw [spots_eq, h] at hs
  simp only [spotsAll_cons, spots_node, spotsAll_nil, List.map_nil, List.append_nil, List.mem_cons,
    List.not_mem_nil, or_false] at hs
  have hlabel : t.label = (fill z t).label ∨ t.label = k := hs.imp (congrArg Spot.label) (congrArg Spot.label)
  rcases hlabel with hl | hl
  · rw [kind, ← hl] at hrule
    rw [kind] at ht
    cases hc : t.label.kind <;> simp_all [Construct.isRule, Construct.isCompound]
  · rw [kind, hl, hk] at ht
    cases ht

theorem Exchange.label_rules (h : Exchange m t u rs m') {r : Layout} (hr : r ∈ rs) :
    r.kind = .rule .hidden none ∧ ∃ X, Numbered X (m + 1) ∧ r.label.name = some X := by
  cases h with
  | unfold hX h =>
    rw [List.mem_singleton] at hr
    subst hr
    exact ⟨rfl, _, hX, rfl⟩
  | rewrite h => cases hr

theorem nameText_of_name {l : Label} {n : String} (h : l.name = some n) : l.nameText = n := by
  simp [Label.nameText, h]

theorem Exchange.not_isRuleNamed (h : Exchange m t u rs m') {r : Layout} (hr : r ∈ rs) :
    ¬IsRuleNamed emptyRule r := by
  obtain ⟨-, X, hX, hn⟩ := h.label_rules hr
  rintro ⟨-, he⟩
  rw [nameText_of_name hn] at he
  exact hX.ne_emptyRule he

/-- What is true of all names of a construct and of made-up names is true of all names of an exchange, if it is of the
reference that takes the place of the construct. -/
theorem Exchange.every_name {P : String → Prop} (h : Exchange m t u rs m') (hmade : ∀ X, Numbered X (m + 1) → P X)
    (hempty : P "") (ht : t.Every fun l _ => P l.nameText) (hu : P u.label.nameText) :
    u.Every (fun l _ => P l.nameText) ∧ ∀ r ∈ rs, r.Every fun l _ => P l.nameText := by
  have hplain (k : Construct) : P (Label.nameText { kind := k }) := hempty
  cases h with
  | @unfold X i r o ps b hX h =>
    have hX := hmade X hX
    have href (o : Bool) : P (referenceLabel X o).nameText := hX
    have hhid : P (hiddenLabel X o ps).nameText := hX
    refine ⟨by simpa using href o, ?_⟩
    suffices b.Every fun l _ => P l.nameText by simpa using ⟨hhid, this⟩
    cases h with
    | @plusSepStar i j a b c d q l k f f' s hl hk he =>
      have hf' := ((every_node.mp ht).2 f (by simp)).of_erase_eq he
      simp_all [plain]
    | @plusSepSelf i j a b c r l k f f' s hl hk he =>
      have hf' := ((every_node.mp ht).2 f (by simp)).of_erase_eq he
      simp_all [plain]
    | @plus i a b c r l f f' hl he =>
      have hf' := ((every_node.mp ht).2 f (by simp)).of_erase_eq he
      simp_all [plain]
    | group hl => simp_all [Label.nameText]
    | _ => simp_all [plain]
  | rewrite h =>
    refine ⟨?_, by simp⟩
    cases h with
    | star hl => simp_all [plain]
    | option hl hk hn => exact (every_node.mp ht).2 _ (List.mem_singleton_self _)
    | group hl hts => exact every_node.mpr ⟨hu, by simp⟩

theorem mem_exchanged {A B : List Layout} {v w x : Layout} (hv : v ∈ A ++ x :: B) :
    v ∈ A ++ w :: B ∨ v = x := by
  rw [List.mem_append, List.mem_cons] at hv
  rcases hv with hv | rfl | hv <;> simp [*]

theorem mem_exchanged_append {A B : List Layout} {v w x : Layout} (hv : v ∈ A ++ x :: B ++ rs) :
    v ∈ A ++ w :: B ∨ v = x ∨ v ∈ rs := by
  rcases List.mem_append.mp hv with hv | hv
  · exact (mem_exchanged hv).imp id Or.inl
  · exact Or.inr (Or.inr hv)

theorem Exchange.sound {A B : List Layout} {f : Frame} {z : List Frame} (h : Exchange m t u rs m')
    (hf : f.label.kind.isRule = false)
    (hu : u.label.nameText = emptyRule → ∃ r ∈ A ++ fill (f :: z) u :: B, IsRuleNamed emptyRule r)
    (hS : Stock.Sound ⟨A ++ fill (f :: z) t :: B, m⟩) :
    Stock.Sound ⟨A ++ fill (f :: z) u :: B ++ rs, m'⟩ := by
  have hfill : (fill (f :: z) t).Every (Proper m) := hS.proper _ (by simp)
  have hlabel := label_fill_cons f z u t
  have hkind := kind_fill_cons f z u t
  constructor
  case proper =>
    intro v hv
    rcases mem_exchanged_append hv with hv | rfl | hv
    · exact (hS.proper v hv).mono fun _ _ hp => hp.mono h.le
    · exact h.every_fill hf hfill
    · exact h.every_rules hfill.of_fill v hv
  case top =>
    intro v hv
    rcases mem_exchanged_append hv with hv | rfl | hv
    · exact hS.top v hv
    · rw [hkind]
      exact hS.top (fill (f :: z) t) (by simp)
    · rw [(h.label_rules hv).1]
      rfl
  case named =>
    intro v hv hr
    rcases mem_exchanged_append hv with hv | rfl | hv
    · exact hS.named v hv hr
    · rw [hlabel]
      exact hS.named _ (by simp) (by rwa [← hkind])
    · obtain ⟨-, X, -, hn⟩ := h.label_rules hv
      rw [hn]
      rfl
  case empty =>
    intro v hv hr
    rcases mem_exchanged_append hv with hv | rfl | hv
    · exact hS.empty v hv hr
    · have hr' : IsRuleNamed emptyRule (fill (f :: z) t) := isRuleNamed_fill_iff.mp hr
      obtain ⟨a, k, hc, hk⟩ := hS.empty (fill (f :: z) t) (by simp) hr'
      exact absurd hc (children_ne_of_isCompound h.isCompound hr'.1 hk)
    · exact absurd hr (h.not_isRuleNamed hv)
  case shared =>
    by_cases hn : u.label.nameText = emptyRule
    · obtain ⟨r, hr, hr'⟩ := hu hn
      exact Or.inl ⟨r, List.mem_append_left _ hr, hr'⟩
    rcases hS.shared with ⟨r, hr, hr'⟩ | hall
    · left
      rcases mem_exchanged (w := fill (f :: z) u) hr with hr | rfl
      · exact ⟨r, List.mem_append_left _ hr, hr'⟩
      · exact ⟨fill (f :: z) u, by simp, isRuleNamed_fill_iff.mp hr'⟩
    · right
      have ht := hall (fill (f :: z) t) (by simp)
      obtain ⟨hu', hrs⟩ := h.every_name (P := (· ≠ emptyRule)) (fun X hX => hX.ne_emptyRule) (by decide) ht.of_fill hn
      intro v hv
      rcases mem_exchanged_append hv with hv | rfl | hv
      · exact hall v hv
      · exact ht.fill_congr hu' ht.frame
      · exact hrs v hv

theorem exists_of_forall₂ {α β : Type} {rs : List α} {as : List β} {P : α → β → Prop} (h : List.Forall₂ P rs as)
    {r : α} (hr : r ∈ rs) : ∃ v ∈ as, P r v := by
  induction h with
  | nil => cases hr
  | cons hp _ ih =>
    rcases List.mem_cons.mp hr with rfl | hr
    · exact ⟨_, List.mem_cons_self .., hp⟩
    · obtain ⟨v, hv, hp⟩ := ih hr
      exact ⟨v, List.mem_cons_of_mem _ hv, hp⟩

/-- A split leaves the other layouts as they are, and each alternative alone in a rule of the name. -/
theorem mem_split {A B as : List Layout} {a v w : Layout}
    (hrs : List.Forall₂ (fun r v => ∃ j, r = node j { l with name := some l.nameText } [v]) rs as)
    (hv : v ∈ A ++ node i l [a] :: B ++ rs) :
    v ∈ A ++ w :: B ∨ ∃ x ∈ a :: as, ∃ j k, v = node j k [x] ∧ k.kind = l.kind ∧ k.nameText = l.nameText ∧
      (l.name.isSome = true → k.name.isSome = true) := by
  rcases mem_exchanged_append hv with hv | rfl | hv
  · exact Or.inl hv
  · exact Or.inr ⟨a, List.mem_cons_self .., i, l, rfl, rfl, rfl, id⟩
  · obtain ⟨x, hx, j, rfl⟩ := exists_of_forall₂ hrs hv
    exact Or.inr ⟨x, List.mem_cons_of_mem _ hx, j, _, rfl, rfl, rfl, fun _ => rfl⟩

theorem sound_split {A B rs as : List Layout} {b : NodeId} {k : Label} {a : Layout}
    (hl : l.kind.isRule = true) (hk : k.kind = .alts)
    (hrs : List.Forall₂ (fun r v => ∃ j, r = node j { l with name := some l.nameText } [v]) rs as)
    (hS : Stock.Sound ⟨A ++ node i l [node b k (a :: as)] :: B, m⟩) :
    Stock.Sound ⟨A ++ node i l [a] :: B ++ rs, m⟩ := by
  have hold : node i l [node b k (a :: as)] ∈ A ++ node i l [node b k (a :: as)] :: B := by simp
  obtain ⟨hp, hbody⟩ := every_node.mp (hS.proper _ hold)
  obtain ⟨hpk, hvs⟩ := every_node.mp (hbody _ (List.mem_singleton_self _))
  have hfits {v : Layout} (hv : v ∈ a :: as) : l.kind.fits [v.kind] = true := by
    have hfit := hpk.fits
    rw [hk] at hfit
    rw [(Construct.fits_alts hfit).2 _ (List.mem_map_of_mem hv)]
    cases hlk : l.kind <;> simp_all [Construct.isRule, Construct.fits]
  -- the rule was not the shared one, which has no alternatives to split
  have hname : l.nameText ≠ emptyRule := fun hn => by
    obtain ⟨a', k', hc, hk'⟩ := hS.empty _ hold ⟨hl, hn⟩
    simp only [children_node, List.cons.injEq, node.injEq, and_true] at hc
    rw [hc.2.1, hk'] at hk
    cases hk
  constructor
  case proper =>
    intro v hv
    rcases mem_split hrs hv with hv | ⟨x, hx, j, k', rfl, hkind, hn, -⟩
    · exact hS.proper v hv
    · refine every_node.mpr ⟨⟨?_, ?_, ?_⟩, by simpa using hvs x hx⟩
      · rw [hkind]
        exact hfits hx
      · rw [hkind, hn]
        exact hp.hidden
      · rw [hn]
        exact hp.number
  case top =>
    intro v hv
    rcases mem_split hrs hv with hv | ⟨x, -, j, k', rfl, hkind, -⟩
    · exact hS.top v hv
    · rw [kind_node, hkind]
      exact hS.top _ hold
  case named =>
    intro v hv hr
    rcases mem_split hrs hv with hv | ⟨x, -, j, k', rfl, -, -, hsome⟩
    · exact hS.named v hv hr
    · exact hsome (hS.named _ hold hl)
  case empty =>
    intro v hv hr
    rcases mem_split hrs hv with hv | ⟨x, -, j, k', rfl, -, hn, -⟩
    · exact hS.empty v hv hr
    · exact absurd (hn ▸ hr.2) hname
  case shared =>
    rcases hS.shared with ⟨r, hr, hr'⟩ | hall
    · left
      rcases mem_exchanged (w := node i l [a]) hr with hr | rfl
      · exact ⟨r, List.mem_append_left _ hr, hr'⟩
      · exact absurd hr'.2 hname
    · right
      have hve := (every_node.mp ((every_node.mp (hall _ hold)).2 _ (List.mem_singleton_self _))).2
      intro v hv
      rcases mem_split hrs hv with hv | ⟨x, hx, j, k', rfl, -, hn, -⟩
      · exact hall v hv
      · exact every_node.mpr ⟨hn ▸ hname, by simpa using hve x hx⟩

theorem sound_shared {T : List Layout} {r a : NodeId} (hS : Stock.Sound ⟨T, m⟩) :
    Stock.Sound ⟨T ++ [node r (hiddenLabel emptyRule false []) [plain .alt a []]], m⟩ := by
  have hcase {v : Layout} (hv : v ∈ T ++ [node r (hiddenLabel emptyRule false []) [plain .alt a []]]) :
      v ∈ T ∨ v = node r (hiddenLabel emptyRule false []) [plain .alt a []] := by simpa using hv
  constructor
  case proper =>
    intro v hv
    rcases hcase hv with hv | rfl
    · exact hS.proper v hv
    · refine every_node.mpr ⟨⟨rfl, fun _ => Or.inl rfl, fun _ => Or.inl rfl⟩, ?_⟩
      simp [every_plain, Construct.fits]
  case top =>
    intro v hv
    rcases hcase hv with hv | rfl
    · exact hS.top v hv
    · rfl
  case named =>
    intro v hv hr
    rcases hcase hv with hv | rfl
    · exact hS.named v hv hr
    · rfl
  case empty =>
    intro v hv hr
    rcases hcase hv with hv | rfl
    · exact hS.empty v hv hr
    · exact ⟨a, _, rfl, rfl⟩
  case shared => exact Or.inl ⟨node r (hiddenLabel emptyRule false []) [plain .alt a []], by simp, rfl, rfl⟩

theorem Step.sound {S S' : Stock} (h : Step S S') (hS : S.Sound) : S'.Sound := by
  cases h with
  | exchange h hf hu => exact h.sound hf hu hS
  | split hl hk hrs => exact sound_split hl hk hrs hS
  | shared hT => exact sound_shared hS

/-- Every step keeps what is true of all names, if it is true of those that are made up. -/
theorem Step.every_name {P : String → Prop} {S S' : Stock} (h : Step S S') (hmade : ∀ X n, Numbered X n → P X)
    (hempty : P "") (hshared : P emptyRule) (hS : ∀ t ∈ S.tops, t.Every fun l _ => P l.nameText) :
    ∀ t ∈ S'.tops, t.Every fun l _ => P l.nameText := by
  intro v hv
  cases h with
  | @exchange A B f z t u rs m m' h hf hu =>
    have hfill := hS (fill (f :: z) t) (by simp)
    have hu : P u.label.nameText := by
      cases h with
      | unfold hX => exact hmade _ _ hX
      | rewrite h =>
        cases h with
        | star => exact hempty
        | option hl hk hn => rwa [label_node, hn]
        | group => exact hshared
    obtain ⟨hu, hrs⟩ := h.every_name (fun X hX => hmade X _ hX) hempty hfill.of_fill hu
    rcases mem_exchanged_append hv with hv | rfl | hv
    · exact hS v hv
    · exact hfill.fill_congr hu hfill.frame
    · exact hrs v hv
  | @split A B rs i b l k a as m hl hk hrs =>
    have hold := every_node.mp (hS (node i l [node b k (a :: as)]) (by simp))
    have hbody := (every_node.mp (hold.2 _ (List.mem_singleton_self _))).2
    rcases mem_split hrs hv with hv | ⟨x, hx, j, k', rfl, -, hn, -⟩
    · exact hS v hv
    · exact every_node.mpr ⟨hn ▸ hold.1, by simpa using hbody x hx⟩
  | @shared T r a m hT =>
    rcases List.mem_append.mp hv with hv | hv
    · exact hS v hv
    · rw [List.mem_singleton.mp hv]
      have hbody : (plain .alt a []).Every fun l _ => P l.nameText := every_node.mpr ⟨hempty, by simp⟩
      exact every_node.mpr ⟨hshared, by simpa using hbody⟩

/-- What a label says, apart from whether it has a name. -/
def outlook (l : Label) : Label × String :=
  ({ l with name := none }, l.nameText)

theorem Stock.Sound.nameText_ne {S : Stock} (hS : S.Sound) {w : Layout} (hw : w ∈ S.tops)
    (hX : Numbered X (S.madeUp + 1)) : w.label.nameText ≠ X := by
  rintro rfl
  rcases (hS.proper w hw).label.number hX.isMade with he | ⟨n, hn, hX'⟩
  · exact hX.ne_emptyRule he
  · have := hX.unique hX'
    omega

/-- Every step leaves the labels of the rules as they are. What it adds says the same as one of them, or is a single
rule, whose name is made up and new. -/
theorem Step.exists_labels {S S' : Stock} (h : Step S S') (hS : S.Sound) :
    ∃ ls, S'.tops.map label = S.tops.map label ++ ls ∧ ((∀ l ∈ ls, ∃ t ∈ S.tops, outlook l = outlook t.label) ∨
      ∃ l, ls = [l] ∧ IsMade l.nameText ∧ ∀ t ∈ S.tops, t.kind.isRule = true → t.label.nameText ≠ l.nameText) := by
  cases h with
  | @exchange A B f z t u rs m m' h hf hu =>
    refine ⟨rs.map label, by simp only [List.map_append, List.map_cons, label_fill_cons f z u t], ?_⟩
    cases h with
    | @unfold X i r o ps b hX h =>
      exact .inr ⟨hiddenLabel X o ps, rfl, hX.isMade, fun t ht _ => hS.nameText_ne ht hX⟩
    | rewrite h => exact .inl fun l hl => (List.not_mem_nil hl).elim
  | @split A B rs i b l k a as m hl hk hrs =>
    refine ⟨rs.map label, by simp, .inl fun l' hl' => ⟨node i l [node b k (a :: as)], by simp, ?_⟩⟩
    obtain ⟨r, hr, rfl⟩ := List.mem_map.mp hl'
    obtain ⟨v, -, j, rfl⟩ := exists_of_forall₂ hrs hr
    rfl
  | @shared T r a m hT =>
    refine ⟨[hiddenLabel emptyRule false []], by simp, .inr ⟨_, rfl, isMade_emptyRule, fun t ht hr hn => ?_⟩⟩
    exact hT t ht ⟨hr, hn⟩

theorem Step.labels_prefix {S S' : Stock} (h : Step S S') (hS : S.Sound) : S.tops.map label <+: S'.tops.map label := by
  obtain ⟨ls, he, -⟩ := h.exists_labels hS
  exact ⟨ls, he.symm⟩

theorem sound_of_steps {S S' : Stock} (h : Relation.ReflTransGen Step S S') (hS : S.Sound) : S'.Sound := by
  induction h with
  | refl => exact hS
  | tail _ h ih => exact h.sound ih

theorem labels_prefix_of_steps {S S' : Stock} (h : Relation.ReflTransGen Step S S') (hS : S.Sound) :
    S.tops.map label <+: S'.tops.map label := by
  induction h with
  | refl => exact List.prefix_rfl
  | tail hsteps h ih => exact ih.trans (h.labels_prefix (sound_of_steps hsteps hS))

theorem every_name_of_steps {P : String → Prop} {S S' : Stock} (h : Relation.ReflTransGen Step S S')
    (hmade : ∀ X n, Numbered X n → P X) (hempty : P "") (hshared : P emptyRule)
    (hS : ∀ t ∈ S.tops, t.Every fun l _ => P l.nameText) : ∀ t ∈ S'.tops, t.Every fun l _ => P l.nameText := by
  induction h with
  | refl => exact hS
  | tail _ h ih => exact h.every_name hmade hempty hshared ih

end Simplify

end Ixml
