import Ixml.Proofs.Document.Drafting
import Ixml.Proofs.Recogniser.Telling
import Ixml.Rendering

/-!
# Rendering along a walk

A walk tells its visitor a derivation, and a draft that takes the events of a derivation into account comes to its root
by recursion. So a rendering, whatever chooses among the rules on the way, comes to the document of the root of a
derivation of the input (`Renderer.verdict_render`). That recursion never finds events unbalanced (`balanced_root`).
-/

namespace Ixml

namespace Work

variable {σ τ α β : Type} {w : Work σ α} {f : α → Work σ β}

/-- The notes that are there have no influence on what the work comes to. -/
def IsPlain (w : Work σ α) : Prop :=
  ∀ s, ∃ x, w.Yields s x

namespace IsPlain

theorem pure (a : α) : IsPlain (Pure.pure a : Work σ α) := fun s => ⟨_, .pure a s⟩

theorem throw (e : Error) : IsPlain (MonadExcept.throw e : Work σ α) := fun s => ⟨_, .throw e s⟩

theorem current : IsPlain (Work.current : Work σ σ) := fun s => ⟨_, .current s⟩

theorem update (g : σ → σ) : IsPlain (Work.update g) := fun s => ⟨_, .update g s⟩

theorem detail (text : String) : IsPlain (Work.detail text : Work σ Unit) := fun s => ⟨_, .detail text s⟩

theorem bind (h : IsPlain w) (hf : ∀ a, IsPlain (f a)) : IsPlain (w >>= f) := fun s => by
  obtain ⟨e | ⟨a, t⟩, hx⟩ := h s
  · exact ⟨_, .bind_error hx⟩
  · obtain ⟨y, hy⟩ := hf a t
    exact ⟨y, .bind_ok hx hy⟩

end IsPlain

theorem Yields.onPart {part : σ → τ} {put : τ → σ → σ} {w : Work τ α} {s : σ} {x : Except Error (α × τ)}
    (h : w.Yields (part s) x) : (Work.onPart part put w).Yields s (x.map fun p => (p.1, put p.2 s)) := by
  rcases x with e | ⟨a, u⟩
  · intro ns
    obtain ⟨t, ht⟩ := h ns
    exact ⟨⟨put t.state s, t.notes⟩, by simp only [Work.onPart, ht]⟩
  · intro ns
    obtain ⟨ns', hns⟩ := h ns
    exact ⟨ns', by simp only [Work.onPart, hns]⟩

theorem perform_bind_of_error {s : σ} {t : Noted σ} {e : Error} (h : w ⟨s, []⟩ = .error e t) :
    ((w >>= f).perform s).1 = .error e := by
  rw [perform, bind_of_error h]

/-- Whatever the notes are after some work, plain work goes on as it would without them. -/
theorem perform_bind_of_ok {s : σ} {t : Noted σ} {a : α} {x : Except Error (β × σ)} (h : w ⟨s, []⟩ = .ok a t)
    (hf : (f a).Yields t.state x) : ((w >>= f).perform s).1 = x.map Prod.fst := by
  rw [perform, bind_of_ok h]
  rcases x with e | ⟨b, u⟩
  · obtain ⟨t', ht'⟩ := hf t.notes
    rw [ht']
    rfl
  · obtain ⟨ns, ht'⟩ := hf t.notes
    rw [ht']
    rfl

end Work

namespace Draft

open Work (IsPlain)

theorem isPlain_giveText (s : String) : IsPlain (giveText s) := fun b => ⟨_, yields_giveText s b⟩

theorem isPlain_checkName (name : String) : IsPlain (checkName name) := fun b => ⟨_, yields_checkName name b⟩

theorem isPlain_opened (a : Attributes) : IsPlain (opened a) := by
  refine .bind .current fun b => ?_
  split
  · exact (isPlain_giveText _).bind fun _ => .pure _
  split
  · exact .pure _
  split
  · exact (isPlain_checkName _).bind fun _ => .pure _
  split
  · split
    · exact .pure _
    · exact .pure _
  · exact (isPlain_checkName _).bind fun _ => .pure _

theorem isPlain_closed (n : OpenSymbol) : IsPlain (closed n) := by
  cases n with
  | element s head children discard =>
    rw [closed]
    split
    · exact .detail _
    · exact .update _
  | attr s name value =>
    rw [closed]
    split
    · exact .throw _
    refine .bind .current fun b => ?_
    split
    · exact .update _
    · exact .throw _
  | omitted s => exact .pure ()
  | insertion s => exact .pure ()

theorem isPlain_step (e : DerivationEvent) : IsPlain (step e) := by
  cases e with
  | opens a => exact (isPlain_opened a).bind fun n => .update _
  | closes a =>
    refine .bind .current fun b => ?_
    split
    · exact .throw _
    refine .bind (.update _) fun _ => ?_
    split
    · exact isPlain_closed _
    · exact .throw _
  | matched c a => exact fun b => ⟨_, yields_matched c a b⟩

theorem isPlain_finish (undecided chosen : Bool) : IsPlain (finish undecided chosen) := by
  refine .bind .current fun b => ?_
  split
  · exact .throw _
  · exact (IsPlain.detail _).bind fun _ => .pure _
  · exact .throw _

end Draft

/-! ### Events that are balanced -/

/-- Something has been made of events, or has failed for another reason than that they are not balanced. -/
def Balanced {α : Type} (x : Except Error α) : Prop :=
  ∀ detail, x ≠ .error (.unbalancedEvents detail)

namespace Balanced

variable {α β : Type} {x : Except Error α} {f : α → Except Error β}

theorem ok (a : α) : Balanced (.ok a) := fun _ he => by cases he

theorem bind (h : Balanced x) (hf : ∀ a, Balanced (f a)) : Balanced (x >>= f) := by
  cases x with
  | error e =>
    intro detail he
    cases he
    exact h detail rfl
  | ok a => exact hf a

theorem map {g : α → β} (h : Balanced x) : Balanced (x.map g) := by
  cases x with
  | error e =>
    intro detail he
    cases he
    exact h detail rfl
  | ok a => exact ok _

end Balanced

namespace Derivation

theorem balanced_checkText (o : Options) (s : String) : Balanced (o.checkText s) := by
  intro detail
  rw [Options.checkText]
  split <;> simp

theorem balanced_checkName (o : Options) (name : String) : Balanced (o.checkName name) := by
  intro detail
  rw [Options.checkName]
  split <;> simp

theorem balanced_setAttribute (name value : String) (owner : Option ElementHead) :
    Balanced (ElementHead.setAttribute name value owner) := by
  intro detail
  cases owner with
  | none => simp [ElementHead.setAttribute]
  | some head =>
    rw [ElementHead.setAttribute]
    split <;> simp

mutual

theorem balanced_valueText (o : Options) (d : Derivation) : Balanced (d.valueText o) := by
  cases d with
  | matched c a => exact balanced_checkText o _
  | derived a ds =>
    rw [valueText]
    exact (balanced_checkText o _).bind fun _ => (balanced_valueTexts o ds).bind fun _ => .ok _

theorem balanced_valueTexts (o : Options) (ds : List Derivation) : Balanced (valueTexts o ds) := by
  cases ds with
  | nil => exact .ok _
  | cons d ds =>
    rw [valueTexts]
    exact (balanced_valueText o d).bind fun _ => (balanced_valueTexts o ds).bind fun _ => .ok _

end

mutual

theorem balanced_contribution (o : Options) (owner : Option ElementHead) (d : Derivation) :
    Balanced (d.contribution o owner) := by
  cases d with
  | matched c a =>
    rw [contribution]
    exact (balanced_checkText o _).bind fun _ => .ok _
  | derived a ds =>
    rw [contribution]
    split
    · exact (balanced_checkText o _).bind fun _ => (balanced_contributions o owner ds).bind fun _ => .ok _
    split
    · refine (balanced_checkName o _).bind fun _ => (balanced_valueTexts o ds).bind fun value => ?_
      split
      · exact fun _ he => by cases he
      · exact (balanced_setAttribute _ value owner).bind fun _ => .ok _
    split
    · exact (balanced_contributions o owner ds).bind fun _ => .ok _
    · refine (balanced_checkName o _).bind fun _ => (balanced_contributions o _ ds).bind fun _ => ?_
      dsimp only
      split <;> exact .ok _

theorem balanced_contributions (o : Options) (owner : Option ElementHead) (ds : List Derivation) :
    Balanced (contributions o owner ds) := by
  cases ds with
  | nil => exact .ok _
  | cons d ds =>
    rw [contributions]
    exact (balanced_contribution o owner d).bind fun _ => (balanced_contributions o _ ds).bind fun _ => .ok _

end

theorem balanced_root (o : Options) (ds : List Derivation) : Balanced (root o ds) := by
  refine (balanced_contributions o none ds).bind fun _ => ?_
  dsimp only
  split
  · exact .ok _
  · exact fun _ he => by cases he

end Derivation

/-! ### Renderers -/

/-- A draft and what chooses among rules, on a common state. Choosing never fails and leaves the draft alone. -/
structure Renderer (σ : Type) where
  choose : List Rule → Work σ Nat
  draft : σ → Draft
  put : Draft → σ → σ
  /-- Whether there was a choice that was not decided. -/
  hadUndecided : σ → Bool
  /-- Whether there was a choice at all. -/
  hadChoice : σ → Bool
  draft_put : ∀ b s, draft (put b s) = b
  exists_choose : ∀ rules s, ∃ i t, choose rules s = .ok i t ∧ draft t.state = draft s.state

namespace Renderer

variable {σ : Type} {c : Renderer σ} {r : Recognition} {B : Bnf} {input : String} {o : Options} {s : σ}

/-- The events of a walk go into the draft. -/
def visitor (c : Renderer σ) : Recognition.Visitor σ where
  choose := c.choose
  visit e := Work.onPart c.draft c.put (Draft.step e)

/-- The document of an input that has been recognised. -/
def render (c : Renderer σ) (r : Recognition) : Work σ (List Xml.Event) := do
  r.walk c.visitor
  let s ← Work.current
  Work.onPart c.draft c.put (Draft.finish (c.hadUndecided s) (c.hadChoice s))

theorem decides (c : Renderer σ) : c.visitor.Decides := fun rules s =>
  let ⟨i, t, h, _⟩ := c.exists_choose rules s
  ⟨i, t, h⟩

/-- What a draft has come to. -/
def drafted (c : Renderer σ) : EStateM.Result Error (Noted σ) Unit → Except Error (Unit × Draft)
  | .ok () t => .ok ((), c.draft t.state)
  | .error e _ => .error e

/-- The draft comes to what the events come to that its visitor is told. -/
theorem yields_follow_of_told {s : Noted σ} {es : List DerivationEvent} {x : EStateM.Result Error (Noted σ) Unit}
    (h : c.visitor.Told s es x) : (Draft.follow es).Yields (c.draft s.state) (c.drafted x) := by
  induction h with
  | done s => exact .pure () _
  | @choice s t rules i es x hc ht ih =>
    obtain ⟨i', t', hc', hd⟩ := c.exists_choose rules s
    rw [show c.visitor.choose rules s = c.choose rules s from rfl, hc'] at hc
    cases hc
    rwa [← hd]
  | @visit s t e es x hv ht ih =>
    obtain ⟨y, hy⟩ := Draft.isPlain_step e (c.draft s.state)
    have hput : (Work.onPart c.draft c.put (Draft.step e)).Yields s.state _ := .onPart hy
    have hv : Work.onPart c.draft c.put (Draft.step e) s = .ok () t := hv
    rcases y with error | ⟨u, b⟩
    · obtain ⟨t', ht'⟩ := hput s.notes
      rw [ht'] at hv
      cases hv
    · obtain ⟨ns, ht'⟩ := hput s.notes
      rw [ht'] at hv
      cases hv
      rw [c.draft_put] at ih
      exact .bind_ok hy ih
  | @failure s t e es error hv =>
    obtain ⟨y, hy⟩ := Draft.isPlain_step e (c.draft s.state)
    have hput : (Work.onPart c.draft c.put (Draft.step e)).Yields s.state _ := .onPart hy
    have hv : Work.onPart c.draft c.put (Draft.step e) s = .error error t := hv
    rcases y with error' | ⟨u, b⟩
    · obtain ⟨t', ht'⟩ := hput s.notes
      rw [ht'] at hv
      cases hv
      exact .bind_error hy
    · obtain ⟨ns, ht'⟩ := hput s.notes
      rw [ht'] at hv
      cases hv

/-- A rendering comes to the document of the root of a derivation of the input. If there is one, the walk has come to
its end, and the states are those that the choices call for. -/
theorem verdict_render_states (h : Recognition.parse? B input = some r) (hs : c.draft s = B.draft o) :
    ∃ ds states, B.NameDerives B.startName ds ∧ Derivation.inputAll ds = input.toList ∧
      (((c.render r).perform s).1 =
        (Derivation.root o [.derived B.start.attributes ds]).map fun e => (B.draft o).document states e.1 e.2) ∧
      ∀ es, ((c.render r).perform s).1 = .ok es → ∃ t, r.walk c.visitor ⟨s, []⟩ = .ok () t ∧
        states = (B.draft o).states (if o.strictAmbiguity then c.hadChoice t.state else c.hadUndecided t.state) := by
  obtain ⟨es, ⟨ds, hds, hin, rfl⟩, ht⟩ := Recognition.tells_walk h c.decides ⟨s, []⟩
  have hf := yields_follow_of_told ht
  have hroot := fun undecided chosen =>
    Draft.verdict_follow_finish (B.draft o) rfl rfl undecided chosen [.derived B.start.attributes ds]
  simp only [Derivation.eventsAll, List.append_nil] at hroot
  rw [hs] at hf
  cases hw : r.walk c.visitor ⟨s, []⟩ with
  | error e t =>
    rw [hw] at hf
    have hverdict : ((c.render r).perform s).1 = .error e := Work.perform_bind_of_error hw
    refine ⟨ds, _, hds, hin, Eq.trans ?_ (hroot false false), fun es hes => ?_⟩
    · rw [(Work.Yields.bind_error hf).perform]
      exact hverdict
    · rw [hverdict] at hes
      cases hes
  | ok u t =>
    rw [hw] at hf
    obtain ⟨y, hy⟩ := Draft.isPlain_finish (c.hadUndecided t.state) (c.hadChoice t.state) (c.draft t.state)
    refine ⟨ds, _, hds, hin, Eq.trans ?_ (hroot (c.hadUndecided t.state) (c.hadChoice t.state)),
      fun es _ => ⟨t, rfl, rfl⟩⟩
    rw [(Work.Yields.bind_ok hf hy).perform]
    have hfinish : (Work.onPart c.draft c.put (Draft.finish (c.hadUndecided t.state) (c.hadChoice t.state))).Yields
      t.state _ := .onPart hy
    refine (Work.perform_bind_of_ok hw (.bind_ok (.current t.state) hfinish)).trans ?_
    rcases y with e | ⟨b, u⟩ <;> rfl

theorem verdict_render (h : Recognition.parse? B input = some r) (hs : c.draft s = B.draft o) :
    ∃ ds states, B.NameDerives B.startName ds ∧ Derivation.inputAll ds = input.toList ∧
      ((c.render r).perform s).1 =
        (Derivation.root o [.derived B.start.attributes ds]).map fun e => (B.draft o).document states e.1 e.2 := by
  obtain ⟨ds, states, hds, hin, hverdict, -⟩ := verdict_render_states h hs
  exact ⟨ds, states, hds, hin, hverdict⟩

end Renderer

namespace Rendering

open Recognition (Visitor)

theorem exists_choose (rules : List Rule) (s : Noted Chooser) : ∃ i t, Chooser.choose rules s = .ok i t := by
  rw [Chooser.choose]
  split
  · exact ⟨0, s, rfl⟩
  dsimp only
  cases Chooser.best? (fun (x y : Float) => decide (x < y)) (rules.map Chooser.weight) with
  | none => exact ⟨0, s, rfl⟩
  | some best => exact ⟨_, _, rfl⟩

/-- A draft with the chooser by weights. -/
def renderer : Renderer Rendering where
  choose := visitor.choose
  draft := draft
  put b s := { s with draft := b }
  hadUndecided s := s.chooser.hadUndecided
  hadChoice s := s.chooser.hadChoice
  draft_put _ _ := rfl
  exists_choose rules s := by
    obtain ⟨i, t, h⟩ := exists_choose rules ⟨s.state.chooser, s.notes⟩
    refine ⟨i, ⟨{ s.state with chooser := t.state }, t.notes⟩, ?_, rfl⟩
    simp only [visitor, onChooser, Work.onPart, h]

theorem render_renderer (r : Recognition) : renderer.render r = render r :=
  rfl

end Rendering

namespace Recognition

variable {r : Recognition} {B : Bnf} {input : String}

/-- On what has been recognised a walk tells its visitor, whatever this chooses, the events of a derivation of the
input from the start symbol, all of them if the visitor does not fail. So no rendering finds them unbalanced. -/
theorem walk_reports_derivation (h : parse? B input = some r) :
    (∀ (σ : Type) (v : Visitor σ), v.Decides → ∀ s, ∃ ds, B.NameDerives B.startName ds ∧
      Derivation.inputAll ds = input.toList ∧
      v.Told s (Derivation.derived B.start.attributes ds).events (r.walk v s) ∧
      ((∀ e s, ∃ t, v.visit e s = .ok () t) → ∃ t, r.walk v s = .ok () t)) ∧
    ∀ (σ : Type) (c : Renderer σ) (o : Options) (s : σ), c.draft s = B.draft o →
      Balanced ((c.render r).perform s).1 := by
  constructor
  · intro σ v hv s
    obtain ⟨es, ⟨ds, hds, hin, rfl⟩, ht⟩ := tells_walk h hv s
    exact ⟨ds, hds, hin, ht, ht.exists_ok⟩
  · intro σ c o s hs
    obtain ⟨ds, states, -, -, hverdict⟩ := Renderer.verdict_render h hs
    rw [hverdict]
    exact (Derivation.balanced_root _ _).map

/-- A visitor that takes the events down. -/
def recorder (pick : List Rule → Nat) : Visitor (List DerivationEvent) where
  choose rules := return pick rules
  visit e := Work.update (· ++ [e])

theorem recorded_of_told {pick : List Rule → Nat} {s : Noted (List DerivationEvent)} {es : List DerivationEvent}
    {x : EStateM.Result Error (Noted (List DerivationEvent)) Unit} (h : (recorder pick).Told s es x) :
    ∃ t, x = .ok () t ∧ t.state = s.state ++ es := by
  induction h with
  | done s => exact ⟨s, rfl, (List.append_nil _).symm⟩
  | choice hc _ ih =>
    cases hc
    exact ih
  | visit hv _ ih =>
    cases hv
    obtain ⟨t, ht, hs⟩ := ih
    exact ⟨t, ht, by rw [hs]; exact List.append_assoc ..⟩
  | failure hv => cases hv

/-- A grammar of a symbol that derives itself in several ways, and also nothing. -/
def loopingBnf : Bnf where
  rules := [⟨.nonterminal "s" {}, [.nonterminal "s" {}]⟩,
    ⟨.nonterminal "s" {}, [.nonterminal "s" {}, .nonterminal "s" {}]⟩,
    ⟨.nonterminal "s" {}, []⟩,
    ⟨.nonterminal "s" {}, [.terminal (.char 'x') {}]⟩]
  start := .nonterminal "s" {}

/-- Where the last way is always chosen. -/
theorem walk_reports_derivation_looping : ∃ r, parse? loopingBnf "xx" = some r ∧
    (∃ ds t, loopingBnf.NameDerives "s" ds ∧ Derivation.inputAll ds = ['x', 'x'] ∧
      r.walk (recorder (·.length)) ⟨[], []⟩ = .ok () t ∧ t.state = (Derivation.derived {} ds).events) ∧
    Balanced ((Rendering.render r).perform { draft := loopingBnf.draft {} }).1 := by
  have hx : loopingBnf.Derives [.terminal (.char 'x') {}] [.matched 'x' {}] := .terminal (by decide) .nil
  have hxx : loopingBnf.Derives [.nonterminal "s" {}, .nonterminal "s" {}]
      [.derived {} [.matched 'x' {}], .derived {} [.matched 'x' {}]] :=
    .nonterminal (r := ⟨.nonterminal "s" {}, [.terminal (.char 'x') {}]⟩) (by decide) hx
      (.nonterminal (r := ⟨.nonterminal "s" {}, [.terminal (.char 'x') {}]⟩) (by decide) hx .nil)
  have hin : "xx".toList ∈ loopingBnf.language loopingBnf.startName := by
    refine ⟨_, ⟨⟨.nonterminal "s" {}, [.nonterminal "s" {}, .nonterminal "s" {}]⟩, by decide, hxx⟩, by decide⟩
  obtain ⟨r, hr⟩ := Option.isSome_iff_exists.mp (isSome_parse?_iff.mpr hin)
  obtain ⟨hwalk, hrender⟩ := walk_reports_derivation hr
  refine ⟨r, hr, ?_, hrender _ Rendering.renderer {} _ rfl⟩
  obtain ⟨ds, hds, hin, ht, -⟩ := hwalk _ (recorder (·.length)) (fun rules s => ⟨_, s, rfl⟩) ⟨[], []⟩
  obtain ⟨t, hok, hstate⟩ := recorded_of_told ht
  exact ⟨ds, t, hds, hin, hok, hstate⟩

end Recognition

end Ixml
