import Ixml.Work

/-!
# Work without its notes

`Work.Yields` says what work comes to from a state: a value and a state, or an error. The notes that are there
have no influence on it. `Work.Ensures` says what is true of the value and the state if the work succeeds, and
`Work.Leaves` what is true of the state whether it succeeds or fails.
-/

namespace Ixml.Work
variable {σ α β : Type} {w : Work σ α} {f : α → Work σ β} {s t : σ} {a : α} {b : β} {e : Error} {n n' : Noted σ}

theorem bind_of_ok (h : w n = .ok a n') : (w >>= f) n = f a n' := by
  show EStateM.bind w f n = _
  rw [EStateM.bind, h]

theorem bind_of_error (h : w n = .error e n') : (w >>= f) n = .error e n' := by
  show EStateM.bind w f n = _
  rw [EStateM.bind, h]

theorem exists_of_bind_ok (h : (w >>= f) n = .ok b n') : ∃ a m, w n = .ok a m ∧ f a m = .ok b n' := by
  cases hw : w n with
  | ok a m => exact ⟨a, m, rfl, (bind_of_ok hw).symm.trans h⟩
  | error e m => cases (bind_of_error hw).symm.trans h

/-- Work comes to a value and a state, or to an error, whatever the notes are. -/
def Yields (w : Work σ α) (s : σ) : Except Error (α × σ) → Prop
  | .ok (a, t) => ∀ ns, ∃ ns', w ⟨s, ns⟩ = .ok a ⟨t, ns'⟩
  | .error e => ∀ ns, ∃ t, w ⟨s, ns⟩ = .error e t

namespace Yields

theorem pure (a : α) (s : σ) : Yields (Pure.pure a : Work σ α) s (.ok (a, s)) :=
  fun ns => ⟨ns, rfl⟩

theorem throw (e : Error) (s : σ) : Yields (MonadExcept.throw e : Work σ α) s (.error e) :=
  fun ns => ⟨⟨s, ns⟩, rfl⟩

theorem current (s : σ) : Yields (Work.current : Work σ σ) s (.ok (s, s)) :=
  fun ns => ⟨ns, rfl⟩

theorem update (g : σ → σ) (s : σ) : Yields (Work.update g) s (.ok ((), g s)) :=
  fun ns => ⟨ns, rfl⟩

theorem detail (text : String) (s : σ) : Yields (Work.detail text : Work σ Unit) s (.ok ((), s)) :=
  fun ns => ⟨ns ++ [⟨.detail, text⟩], rfl⟩

theorem bind_error (h : Yields w s (.error e)) : Yields (w >>= f) s (.error e) := fun ns => by
  obtain ⟨t, ht⟩ := h ns
  exact ⟨t, bind_of_error ht⟩

theorem bind_ok {r : Except Error (β × σ)} (h : Yields w s (.ok (a, t))) (h' : Yields (f a) t r) :
    Yields (w >>= f) s r := by
  have hb : ∀ ns, ∃ ns', (w >>= f) ⟨s, ns⟩ = f a ⟨t, ns'⟩ := fun ns => by
    obtain ⟨ns', hw⟩ := h ns
    exact ⟨ns', bind_of_ok hw⟩
  rcases r with e | ⟨b, u⟩
  · intro ns
    obtain ⟨ns', hns⟩ := hb ns
    rw [hns]
    exact h' ns'
  · intro ns
    obtain ⟨ns', hns⟩ := hb ns
    rw [hns]
    exact h' ns'

theorem perform {r : Except Error (α × σ)} (h : Yields w s r) :
    (Work.perform w s).1 = r.map Prod.fst := by
  rcases r with e | ⟨a, t⟩
  · obtain ⟨t, ht⟩ := h []
    simp only [Work.perform, ht]
    rfl
  · obtain ⟨ns, ht⟩ := h []
    simp only [Work.perform, ht]
    rfl

theorem unique {x y : Except Error (α × σ)} (hx : Yields w s x) (hy : Yields w s y) : x = y := by
  rcases x with e | ⟨a, t⟩ <;> rcases y with e' | ⟨a', t'⟩ <;> obtain ⟨_, hx⟩ := hx [] <;>
    obtain ⟨_, hy⟩ := hy [] <;> cases hx.symm.trans hy <;> rfl

end Yields

/-- If the work succeeds, its value and the state that it leaves satisfy `Q`. -/
def Ensures (w : Work σ α) (s : σ) (Q : α → σ → Prop) : Prop :=
  ∀ ns a t, w ⟨s, ns⟩ = .ok a t → Q a t.state

namespace Ensures

variable {Q : α → σ → Prop} {R : β → σ → Prop}

theorem pure (h : Q a s) : Ensures (Pure.pure a) s Q := by
  intro ns a' t hw
  cases hw
  exact h

theorem throw (e : Error) (s : σ) : Ensures (MonadExcept.throw e : Work σ α) s Q := by
  intro ns a t hw
  cases hw

theorem bind (h : Ensures w s Q) (hf : ∀ a t, Q a t → Ensures (f a) t R) : Ensures (w >>= f) s R := by
  intro ns b u hb
  obtain ⟨a, t, hw, hu⟩ := exists_of_bind_ok hb
  exact hf a t.state (h ns a t hw) t.notes b u hu

theorem mono {Q' : α → σ → Prop} (h : Ensures w s Q) (hQ : ∀ a t, Q a t → Q' a t) : Ensures w s Q' :=
  fun ns a t hw => hQ a t.state (h ns a t hw)

theorem current {k : σ → Work σ α} (h : Ensures (k s) s Q) : Ensures (Work.current >>= k) s Q :=
  bind (Q := fun a t => a = s ∧ t = s) (fun ns a t hw => by cases hw; exact ⟨rfl, rfl⟩)
    fun a t ⟨ha, ht⟩ => by rw [ha, ht]; exact h

theorem update (g : σ → σ) (s : σ) : Ensures (Work.update g) s fun _ t => t = g s := by
  intro ns a t hw
  cases hw
  rfl

theorem note (level : Level) (text : String) (s : σ) : Ensures (Work.note level text) s fun _ t => t = s := by
  intro ns a t hw
  cases hw
  rfl

theorem warn (text : String) (s : σ) : Ensures (Work.warn text) s fun _ t => t = s :=
  note .warning text s

theorem detail (text : String) (s : σ) : Ensures (Work.detail text) s fun _ t => t = s :=
  note .detail text s

theorem forM {xs : List α} {g : α → Work σ Unit} {P : σ → Prop}
    (hg : ∀ x ∈ xs, ∀ s, P s → Ensures (g x) s fun _ t => P t) (hs : P s) : Ensures (xs.forM g) s fun _ t => P t := by
  induction xs generalizing s with
  | nil => exact pure hs
  | cons x xs ih =>
    rw [List.forall_mem_cons] at hg
    exact (hg.1 s hs).bind fun _ t ht => ih hg.2 ht

theorem onPart {τ : Type} {part : σ → τ} {put : τ → σ → σ} {w : Work τ α} {Q : α → τ → Prop}
    (h : Ensures w (part s) Q) : Ensures (Work.onPart part put w) s fun a t => ∃ u, Q a u ∧ t = put u s := by
  intro ns a t hw
  cases hr : w ⟨part s, ns⟩ with
  | error e u =>
    simp only [Work.onPart, hr] at hw
    cases hw
  | ok b u =>
    simp only [Work.onPart, hr] at hw
    cases hw
    exact ⟨u.state, h ns a u hr, rfl⟩

/-- What work leaves behind that is performed and succeeds. -/
theorem perform (h : Ensures w s Q) (hw : (Work.perform w s).1 = .ok a) : Q a (Work.perform w s).2.state := by
  have hcase := h []
  cases hr : w ⟨s, []⟩ with
  | error e t =>
    simp only [Work.perform, hr] at hw
    cases hw
  | ok b t =>
    simp only [Work.perform, hr, Except.ok.injEq] at hw ⊢
    rw [← hw]
    exact hcase b t hr

end Ensures

/-- The state that the work leaves satisfies `P`, also if it fails. -/
def Leaves (w : Work σ α) (s : σ) (P : σ → Prop) : Prop :=
  ∀ ns, P (match w ⟨s, ns⟩ with
    | .ok _ t => t.state
    | .error _ t => t.state)

namespace Leaves

variable {P Q : σ → Prop}

theorem pure (h : P s) : Leaves (Pure.pure a : Work σ α) s P := fun _ => h

theorem throw (e : Error) (h : P s) : Leaves (MonadExcept.throw e : Work σ α) s P := fun _ => h

theorem update {g : σ → σ} (h : P (g s)) : Leaves (Work.update g) s P := fun _ => h

theorem warn (text : String) (h : P s) : Leaves (Work.warn text : Work σ Unit) s P := fun _ => h

theorem detail (text : String) (h : P s) : Leaves (Work.detail text : Work σ Unit) s P := fun _ => h

theorem mono (h : Leaves w s P) (hPQ : ∀ t, P t → Q t) : Leaves w s Q := fun ns => hPQ _ (h ns)

theorem ensures (h : Leaves w s P) : Ensures w s fun _ t => P t := by
  intro ns a t hw
  have := h ns
  rwa [hw] at this

theorem seq {R : α → σ → Prop} (h : Leaves w s P) (he : Ensures w s R) (hf : ∀ a t, R a t → Leaves (f a) t P) :
    Leaves (w >>= f) s P := by
  intro ns
  have hw := h ns
  cases hr : w ⟨s, ns⟩ with
  | error e t =>
    rw [hr] at hw
    rwa [bind_of_error hr]
  | ok a t =>
    rw [bind_of_ok hr]
    exact hf a t.state (he ns a t hr) t.notes

theorem bind (h : Leaves w s Q) (hQP : ∀ t, Q t → P t) (hf : ∀ a t, Q t → Leaves (f a) t P) :
    Leaves (w >>= f) s P :=
  (h.mono hQP).seq h.ensures hf

theorem current {k : σ → Work σ α} (h : Leaves (k s) s P) : Leaves (Work.current >>= k) s P := fun ns => h ns

theorem perform (h : Leaves w s P) : P (Work.perform w s).2.state := by
  have hw := h []
  unfold Work.perform
  cases hr : w ⟨s, []⟩ with
  | error e t => rwa [hr] at hw
  | ok a t => rwa [hr] at hw

end Leaves

end Ixml.Work
