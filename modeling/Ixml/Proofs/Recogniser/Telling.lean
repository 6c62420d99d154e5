import Ixml.Proofs.Recogniser.Divisions
import Ixml.Proofs.Work

/-!
# What a walk tells

`Visitor.Told` says what comes of a visitor that is told events one after the other and makes choices in between,
up to the first event that it fails at. A walk tells its visitor the events of a derivation of the input from the start
symbol (`tells_walk`), whatever the visitor chooses and whether or not it fails: by induction on the height of a span,
where the parts of a division are walked in order (`Divides.tells`).
-/

namespace Ixml.Recognition

variable {σ : Type} {v : Visitor σ} {s t : Noted σ} {w w' : Work σ Unit} {e : DerivationEvent}
  {es es' : List DerivationEvent} {E E' : Language DerivationEvent} {x : EStateM.Result Error (Noted σ) Unit}
  {error : Error} {rules : List Rule}

/-! ### Visitors that are told events -/

/-- `v.Told s es x` says that a visitor in the state `s`, told the events `es` in order, comes to `x`. It may make
choices at any time, and is told nothing more after an event that it fails at. -/
inductive Visitor.Told (v : Visitor σ) :
    Noted σ → List DerivationEvent → EStateM.Result Error (Noted σ) Unit → Prop
  | done (s : Noted σ) : Told v s [] (.ok () s)
  | choice {s t : Noted σ} {rules : List Rule} {i : Nat} {es : List DerivationEvent}
    {x : EStateM.Result Error (Noted σ) Unit} (h : v.choose rules s = .ok i t) (ht : Told v t es x) : Told v s es x
  | visit {s t : Noted σ} {e : DerivationEvent} {es : List DerivationEvent}
    {x : EStateM.Result Error (Noted σ) Unit} (h : v.visit e s = .ok () t) (ht : Told v t es x) :
    Told v s (e :: es) x
  | failure {s t : Noted σ} {e : DerivationEvent} {es : List DerivationEvent} {error : Error}
    (h : v.visit e s = .error error t) : Told v s (e :: es) (.error error t)

/-- A visitor that never fails to choose. -/
def Visitor.Decides (v : Visitor σ) : Prop :=
  ∀ rules s, ∃ i t, v.choose rules s = .ok i t

/-- From every state on, work tells a visitor some of the events that `E` allows. -/
def Visitor.Tells (v : Visitor σ) (w : Work σ Unit) (E : Language DerivationEvent) : Prop :=
  ∀ s, ∃ es ∈ E, v.Told s es (w s)

namespace Visitor

theorem Told.append (h : v.Told s es (.ok () t)) (h' : v.Told t es' x) : v.Told s (es ++ es') x := by
  generalize hy : (EStateM.Result.ok () t : EStateM.Result Error (Noted σ) Unit) = y at h
  induction h with
  | done s =>
    cases hy
    exact h'
  | choice hc _ ih => exact .choice hc (ih hy)
  | visit hv _ ih => exact .visit hv (ih hy)
  | failure => cases hy

theorem Told.append_of_error (h : v.Told s es (.error error t)) : v.Told s (es ++ es') (.error error t) := by
  generalize hy : (EStateM.Result.error error t : EStateM.Result Error (Noted σ) Unit) = y at h
  induction h with
  | done s => cases hy
  | choice hc _ ih => exact .choice hc (ih hy)
  | visit hv _ ih => exact .visit hv (ih hy)
  | failure hv => exact .failure hv

theorem Told.exists_ok (h : v.Told s es x) (hv : ∀ e s, ∃ t, v.visit e s = .ok () t) : ∃ t, x = .ok () t := by
  induction h with
  | done s => exact ⟨s, rfl⟩
  | choice _ _ ih => exact ih
  | visit _ _ ih => exact ih
  | @failure s t e es error he =>
    obtain ⟨t', ht'⟩ := hv e s
    rw [ht'] at he
    cases he

namespace Tells

theorem mono (h : v.Tells w E) (hE : E ≤ E') : v.Tells w E' := fun s =>
  (h s).imp fun _ ⟨hes, ht⟩ => ⟨hE hes, ht⟩

theorem pure : v.Tells (Pure.pure ()) 1 := fun s =>
  ⟨[], Language.nil_mem_one, .done s⟩

theorem visit (e : DerivationEvent) : v.Tells (v.visit e) {[e]} := fun s => by
  refine ⟨[e], rfl, ?_⟩
  cases h : v.visit e s with
  | ok u t => exact .visit h (.done t)
  | error error t => exact .failure h

theorem seq (h : v.Tells w E) (h' : v.Tells w' E') : v.Tells (w >>= fun _ => w') (E * E') := fun s => by
  obtain ⟨es, hes, ht⟩ := h s
  cases hw : w s with
  | ok u t =>
    rw [hw] at ht
    rw [Work.bind_of_ok hw]
    obtain ⟨es', hes', ht'⟩ := h' t
    exact ⟨es ++ es', Language.append_mem_mul hes hes', ht.append ht'⟩
  | error error t =>
    rw [hw] at ht
    rw [Work.bind_of_error hw]
    -- there is something that would have been told
    obtain ⟨es', hes', -⟩ := h' t
    exact ⟨es ++ es', Language.append_mem_mul hes hes', ht.append_of_error⟩

theorem choose (hv : v.Decides) {f : Nat → Work σ Unit} (h : ∀ i, v.Tells (f i) E) :
    v.Tells (v.choose rules >>= f) E := fun s => by
  obtain ⟨i, t, hc⟩ := hv rules s
  obtain ⟨es, hes, ht⟩ := h i t
  refine ⟨es, hes, .choice hc ?_⟩
  rwa [Work.bind_of_ok hc]

end Tells

end Visitor

/-! ### Events of derivations -/

variable {r : Recognition} {B : Bnf} {input : String} {n : String} {a : Attributes} {m : Matcher} {c : Char}
  {p q j k bound fuel : Nat} {ss : List Symbol} {parts : List Part} {symbol : Symbol}

/-- The events of the derivations of a part of the input from a nonterminal. -/
def storiesOf (r : Recognition) (n : String) (a : Attributes) (p q : Nat) : Language DerivationEvent :=
  {es | ∃ ds, r.grammar.NameDerives n ds ∧ Derivation.inputAll ds = r.between p q ∧
    es = (Derivation.derived a ds).events}

/-- The events of the derivations of a part of the input from symbols. -/
def storiesOfAll (r : Recognition) (ss : List Symbol) (p q : Nat) : Language DerivationEvent :=
  {es | ∃ ds, r.grammar.Derives ss ds ∧ Derivation.inputAll ds = r.between p q ∧ es = Derivation.eventsAll ds}

theorem one_le_storiesOfAll : 1 ≤ r.storiesOfAll [] p p := by
  rintro es rfl
  refine ⟨[], .nil, ?_, rfl⟩
  rw [between, Nat.sub_self, List.take_zero, Derivation.inputAll]

theorem matched_mul_storiesOfAll_le (hp : r.input[p]? = some c) (hc : m.accepts c = true) (hpq : p + 1 ≤ q)
    (hq : q ≤ r.input.size) :
    {[.matched c a]} * r.storiesOfAll ss (p + 1) q ≤ r.storiesOfAll (.terminal m a :: ss) p q := by
  rintro _ ⟨_, rfl, _, ⟨ds, hds, hin, rfl⟩, rfl⟩
  refine ⟨.matched c a :: ds, .terminal hc hds, ?_, rfl⟩
  rw [Derivation.inputAll, Derivation.input, hin]
  refine (append_eq_between (by omega) hq).mpr ⟨p + 1, by omega, hpq, ?_, rfl⟩
  exact (singleton_eq_between (by omega)).mpr ⟨rfl, hp⟩

theorem storiesOf_mul_storiesOfAll_le (hpj : p ≤ j) (hjq : j ≤ q) (hq : q ≤ r.input.size) :
    r.storiesOf n a p j * r.storiesOfAll ss j q ≤ r.storiesOfAll (.nonterminal n a :: ss) p q := by
  rintro _ ⟨_, ⟨es, ⟨rule, hrule, hes⟩, hin, rfl⟩, _, ⟨ds, hds, hin', rfl⟩, rfl⟩
  refine ⟨.derived a es :: ds, .nonterminal hrule hes hds, ?_, rfl⟩
  rw [Derivation.inputAll, Derivation.input, hin, hin']
  exact (append_eq_between (by omega) hq).mpr ⟨j, hpj, hjq, rfl, rfl⟩

/-- A nonterminal opens, its parts follow, and it closes. -/
theorem opens_mul_storiesOfAll_le {rule : Rule} (hrule : rule ∈ r.grammar.rulesFor n) :
    {[.opens a]} * (r.storiesOfAll rule.rhs p q * {[.closes a]}) ≤ r.storiesOf n a p q := by
  rintro _ ⟨_, rfl, _, ⟨_, ⟨ds, hds, hin, rfl⟩, _, rfl, rfl⟩, rfl⟩
  exact ⟨ds, ⟨rule, hrule, hds⟩, hin, rfl⟩

/-! ### Walks -/

/-- What is done for a symbol of a rule and the part that it stands for. -/
def walkPart (r : Recognition) (v : Visitor σ) (fuel : Nat) (span : Span) (x : Symbol × Part) : Work σ Unit :=
  match x.2 with
  | .matched p =>
    match r.input[p]? with
    | some c => v.visit (.matched c x.1.attributes)
    | none => noDerivation span
  | .derived p q => walkSymbol r v fuel x.1 p q

theorem walkSymbol_succ (h : r.heights[(⟨symbol.nameText, p, q⟩ : Span)]? = some k)
    (hne : r.ways k ⟨symbol.nameText, p, q⟩ ≠ []) : walkSymbol r v (fuel + 1) symbol p q = (do
      let options := r.ways k ⟨symbol.nameText, p, q⟩
      let choice ← v.choose (options.map (·.1))
      match options[min choice (options.length - 1)]? with
      | none => noDerivation ⟨symbol.nameText, p, q⟩
      | some (rule, parts) => do
        v.visit (.opens symbol.attributes)
        (rule.rhs.zip parts).forM (r.walkPart v fuel ⟨symbol.nameText, p, q⟩)
        v.visit (.closes symbol.attributes)) := by
  have hempty : (r.ways k ⟨symbol.nameText, p, q⟩).isEmpty = false := by simpa using hne
  rw [walkSymbol]
  simp only [h, hempty, Bool.false_eq_true, if_false]
  rfl

/-- The parts of a division are told in order, if the spans among them are told. -/
theorem Divides.tells (hr : r.IsComplete) {span : Span} (h : r.Divides bound ss p q parts) (hq : q ≤ r.input.size)
    (hwalk : ∀ (n : String) (a : Attributes) (p j k : Nat), r.heights[(⟨n, p, j⟩ : Span)]? = some k → k < bound →
      v.Tells (walkSymbol r v fuel (.nonterminal n a) p j) (r.storiesOf n a p j)) :
    v.Tells ((ss.zip parts).forM (r.walkPart v fuel span)) (r.storiesOfAll ss p q) := by
  induction h with
  | nil => exact Visitor.Tells.pure.mono one_le_storiesOfAll
  | @matched m a c ss p q parts hp hc h ih =>
    have hcon : r.walkPart v fuel span (.terminal m a, .matched p) = v.visit (.matched c a) := by
      simp only [walkPart, hp]
      rfl
    have hseq := ((Visitor.Tells.visit (v := v) (.matched c a)).seq (ih hq)).mono
      (matched_mul_storiesOfAll_le hp hc (h.le hr) hq)
    rwa [← hcon] at hseq
  | @derived n a ss p j q k parts hk hlt h ih =>
    exact ((hwalk n a p j k hk hlt).seq (ih hq)).mono
      (storiesOf_mul_storiesOfAll_le ((hr _ _ _ _).mp hk).1 (h.le hr) hq)

/-- A walk of a span tells the events of one of its derivations. -/
theorem tells_walkSymbol (hr : r.IsComplete) (hv : v.Decides)
    (h : r.heights[(⟨symbol.nameText, p, q⟩ : Span)]? = some k) (hk : k ≤ fuel) :
    v.Tells (walkSymbol r v fuel symbol p q) (r.storiesOf symbol.nameText symbol.attributes p q) := by
  induction fuel generalizing symbol p q k with
  | zero =>
    -- no span has the height zero
    obtain ⟨-, -, ⟨ds, -, -, hds⟩, -⟩ := (hr _ _ _ _).mp h
    omega
  | succ fuel ih =>
    have hne := hr.ways_ne_nil h
    rw [walkSymbol_succ h hne]
    refine Visitor.Tells.choose hv fun i => ?_
    have hpos := List.length_pos_iff.mpr hne
    have hlt : min i ((r.ways k ⟨symbol.nameText, p, q⟩).length - 1) < (r.ways k ⟨symbol.nameText, p, q⟩).length := by
      omega
    rw [List.getElem?_eq_getElem hlt]
    obtain ⟨hrule, hparts⟩ := divides_of_mem_ways (List.getElem_mem hlt)
    have hq := ((hr _ _ _ _).mp h).2.1
    refine ((Visitor.Tells.visit _).seq (.seq ?_ (.visit _))).mono (opens_mul_storiesOfAll_le hrule)
    refine hparts.tells hr hq fun n a p' j k' hk' hlt' => ?_
    have hwalk : v.Tells (walkSymbol r v fuel (.nonterminal n a) p' j) _ := ih hk' (by omega)
    exact hwalk

/-- A walk tells the events of a derivation of the input from the start symbol. -/
theorem tells_walk (h : parse? B input = some r) (hv : v.Decides) : v.Tells (r.walk v)
    {es | ∃ ds, B.NameDerives B.startName ds ∧ Derivation.inputAll ds = input.toList ∧
      es = (Derivation.derived B.start.attributes ds).events} := by
  obtain ⟨hr, rfl, hinput, k, hk⟩ := isComplete_of_parse? h
  have hwalk : v.Tells (walkSymbol r v k r.grammar.start 0 r.input.size) _ := tells_walkSymbol hr hv hk (Nat.le_refl k)
  rw [storiesOf, between_whole, hinput] at hwalk
  rw [walk, hk, hinput]
  exact hwalk

end Ixml.Recognition
