import Ixml.Proofs.Simplify.Exchange
import Ixml.Proofs.Store.Copy

/-!
# What edits do to layouts

`Edit.Does m g Q` says that after the edit `m` of the grammar `g` the answer and the grammar satisfy `Q`, and
`Laid b F g` that `g` holds the layouts `F` and is `b` apart from its nodes. Each edit then has one lemma, which
says what becomes of the layouts.
-/

namespace Ixml

open Layout

/-- Bring an element to the front. -/
def bring {α : Type} : Nat → List α → List α
  | 0, xs => xs
  | _ + 1, [] => []
  | n + 1, x :: xs =>
    match bring n xs with
    | [] => [x]
    | y :: ys => y :: x :: ys

theorem bring_perm {α : Type} (n : Nat) (xs : List α) : xs.Perm (bring n xs) := by
  induction n generalizing xs with
  | zero => exact .refl _
  | succ n ih =>
    cases xs with
    | nil => exact .refl _
    | cons x xs =>
      have h := ih xs
      rw [bring]
      split
      · rename_i he
        rw [he] at h
        rw [h.eq_nil]
      · rename_i y ys he
        rw [he] at h
        exact (h.cons x).trans (.swap ..)

/-- A grammar without its nodes. -/
def Grammar.bare (g : Grammar) : Grammar :=
  { g with nodes := #[] }

/-- The grammar holds some layouts and is `b` apart from its nodes. -/
structure Laid (b : Grammar) (F : List Layout) (g : Grammar) : Prop where
  lays : Lays g F
  bare : g.bare = b

namespace Laid

variable {b g : Grammar} {F : List Layout}

theorem bring (h : Laid b F g) (n : Nat) : Laid b (Ixml.bring n F) g :=
  ⟨h.lays.perm (bring_perm n F), h.bare⟩

theorem kids_eq {z : List Frame} {i : NodeId} {l : Label} {c : List Layout} (h : Laid b F g)
    (ht : fill z (node i l c) ∈ F) : g.children i = c.map Layout.id :=
  h.lays.kids_eq (Lays.spots_subset ht)

theorem toLabel_eq {z : List Frame} {i : NodeId} {l : Label} {c : List Layout} (h : Laid b F g)
    (ht : fill z (node i l c) ∈ F) : (g.node i).toLabel = l := by
  have hs := Lays.spots_subset ht (top_mem_spots _ _)
  rw [show g.node i = _ from h.lays.node_eq hs, node_top]
  rfl

end Laid

namespace Edit

open Simplify

variable {α β : Type} {b g : Grammar} {F U : List Layout} {z : List Frame} {f : Frame} {t u T : Layout}
  {us : List Layout} {p : NodeId} {l : Label} {Q : α → Grammar → Prop}

/-- After an edit of `g`, the answer and the grammar satisfy `Q`. -/
def Does (m : Edit α) (g : Grammar) (Q : α → Grammar → Prop) : Prop :=
  Q (m g).1 (m g).2

theorem Does.pure {a : α} (h : Q a g) : Does (Pure.pure a) g Q := h

theorem Does.bind {R : β → Grammar → Prop} {m : Edit α} {k : α → Edit β} (h : Does m g Q)
    (hk : ∀ a g', Q a g' → Does (k a) g' R) : Does (m >>= k) g R :=
  hk _ _ h

theorem Does.mono {Q' : α → Grammar → Prop} {m : Edit α} (h : Does m g Q) (hQ : ∀ a g', Q a g' → Q' a g') :
    Does m g Q' :=
  hQ _ _ h

theorem Does.get {k : Grammar → Edit α} (h : Does (k g) g Q) : Does (MonadState.get >>= k) g Q := h

theorem does_newNode (h : Laid b F g) (l : Label) :
    Does (newNode l) g fun i g' => Laid b (node i l [] :: F) g' ∧ i ∉ idsAll F :=
  ⟨⟨h.lays.push l, h.bare⟩, h.lays.next_notMem⟩

theorem does_append (h : Laid b (fill z (node p l us) :: T :: F) g) :
    Does (append p T.id) g fun _ g' => Laid b (fill z (node p l (us ++ [T])) :: F) g' :=
  ⟨h.lays.append, h.bare⟩

theorem bare_detach (g : Grammar) (i : NodeId) : (g.detach i).bare = g.bare := by
  unfold Grammar.detach
  split <;> rfl

theorem bare_replace (g : Grammar) (i j : NodeId) : (g.replace i j).bare = g.bare := by
  unfold Grammar.replace
  split <;> rfl

theorem does_detach (h : Laid b (fill (f :: z) T :: F) g) :
    Does (detach T.id) g fun _ g' =>
      Laid b (T :: fill z (node f.id f.label (f.before ++ f.after)) :: F) g' :=
  ⟨h.lays.detach, (bare_detach g T.id).trans h.bare⟩

theorem does_replace (h : Laid b (fill (f :: z) t :: u :: F) g) :
    Does (replace t.id u.id) g fun _ g' => Laid b (fill (f :: z) u :: t :: F) g' :=
  ⟨h.lays.replace, (bare_replace g t.id u.id).trans h.bare⟩

theorem does_defer (h : Laid b F g) (r : NodeId) :
    Does (defer r) g fun _ g' => Laid { b with waiting := b.waiting ++ [r] } F g' := by
  obtain ⟨h, rfl⟩ := h
  exact ⟨⟨h.cells, h.nodup⟩, rfl⟩

mutual

theorem bare_addTree (g : Grammar) : ∀ t : Tree, (g.addTree t).bare = g.bare
  | .node l ts => by rw [Grammar.addTree, bare_addChildren]; rfl

theorem bare_addChildren (g : Grammar) (p : NodeId) : ∀ ts : List Tree, (g.addChildren p ts).bare = g.bare
  | [] => by rw [Grammar.addChildren]
  | t :: ts => by
    rw [Grammar.addChildren, bare_addChildren]
    exact bare_addTree g t

end

theorem does_copy (h : Laid b F g) (ht : fill z t ∈ F) :
    Does (copy t.id) g fun i g' => ∃ T : Layout, T.erase = t.erase ∧ T.id = i ∧ i ∉ idsAll F ∧
      Laid b (T :: F) g' := by
  obtain ⟨T, hT, hgrown⟩ := h.lays.copy ht
  exact ⟨T, hT, hgrown.id_eq, h.lays.next_notMem, hgrown.lays h.lays, (congrArg Grammar.bare hgrown.rest).trans h.bare⟩

theorem does_newName (h : Laid b F g) (source : NodeId) {word : String} (hw : IsSuffix word) :
    Does (newName source word) g fun X g' =>
      Laid { b with madeUp := b.madeUp + 1 } F g' ∧ Numbered X (b.madeUp + 1) := by
  obtain ⟨h, rfl⟩ := h
  exact ⟨⟨⟨h.cells, h.nodup⟩, rfl⟩, numbered_nextName g _ hw⟩

theorem does_newRule (h : Laid b F g) (source : NodeId) {word : String} (hw : IsSuffix word) :
    Does (newRule source word) g fun r g' =>
      Laid { b with madeUp := b.madeUp + 1 }
        (node r.rule (hiddenLabel r.name false []) [plain .alts r.body []] :: F) g' ∧
      Numbered r.name (b.madeUp + 1) := by
  refine (does_newName h source hw).bind fun X g₁ ⟨h, hX⟩ => ?_
  refine (does_newNode h _).bind fun r g₂ ⟨h, _⟩ => ?_
  refine (does_newNode h _).bind fun a g₃ ⟨h, _⟩ => ?_
  refine (does_append (z := []) (h.bring 1)).bind fun _ g₄ h => ?_
  exact ⟨h, hX⟩

theorem does_appendAll (h : Laid b (node p l us :: (U ++ F)) g) :
    Does ((U.map Layout.id).forM (append p)) g fun _ g' => Laid b (node p l (us ++ U) :: F) g' := by
  induction U generalizing g us with
  | nil => exact .pure (by simpa using h)
  | cons T U ih =>
    refine (does_append (z := []) h).bind fun _ g' h => ?_
    simpa using ih h

theorem does_addAlt (h : Laid b (fill z (node p l us) :: (U ++ F)) g) :
    Does (addAlt p (U.map Layout.id)) g fun _ g' =>
      ∃ a, Laid b (fill z (node p l (us ++ [plain .alt a U])) :: F) g' := by
  refine (does_newNode h _).bind fun a g₁ ⟨h, _⟩ => ?_
  have h : Laid b (node a { kind := .alt } [] :: (U ++ fill z (node p l us) :: F)) g₁ :=
    ⟨h.lays.perm (List.Perm.cons _ List.perm_middle.symm), h.bare⟩
  refine (does_appendAll h).bind fun _ g₂ h => ?_
  exact (does_append (h.bring 1)).mono fun _ _ h => ⟨a, h⟩

theorem does_detachAll (h : Laid b (fill z (node p l us) :: F) g) :
    Does ((us.map Layout.id).forM detach) g fun _ g' =>
      Laid b (fill z (node p l []) :: (us.reverse ++ F)) g' := by
  induction us generalizing g F with
  | nil => exact .pure (by simpa using h)
  | cons T us ih =>
    refine (does_detach (f := ⟨p, l, [], us⟩) h).bind fun _ g' h => ?_
    simpa using ih (h.bring 1)

theorem does_takeApart (h : Laid b (fill z (node p l (t :: us)) :: F) g) :
    Does (takeApart p) g fun r g' => r = (t.id, (us.map Layout.id).head?) ∧
      Laid b (fill z (node p l []) :: (us.reverse ++ t :: F)) g' := by
  have hc := h.kids_eq (List.mem_cons_self ..)
  refine .get ?_
  simp only [hc]
  refine (does_detachAll h).bind fun _ g' h => ?_
  exact .pure ⟨rfl, by simpa using h⟩

theorem does_referTo {X : String} {r i : NodeId} {o : Bool} {ps : List Pragma}
    (h : Laid b (fill (f :: z) t :: node r (hiddenLabel X o ps) us :: F) g) :
    Does (referTo ⟨r, i, X⟩ t.id) g fun _ g' =>
      ∃ j, j ∉ idsAll (fill (f :: z) t :: node r (hiddenLabel X o ps) us :: F) ∧
        Laid { b with waiting := b.waiting ++ [r] }
          (fill (f :: z) (node j (referenceLabel X o) []) :: node r (hiddenLabel X o ps) us :: t :: F) g' := by
  refine (does_newNode h _).bind fun j g₁ ⟨h, hj⟩ => ?_
  have ho : (g₁.node r).isOptional = o :=
    congrArg Label.isOptional (h.toLabel_eq (z := []) (i := r) (l := hiddenLabel X o ps) (c := us) (by simp))
  have hm := h.lays.modify_label (z := []) fun l => { l with isOptional := (g₁.node r).isOptional }
  have hm : Lays _ (node j (referenceLabel X (g₁.node r).isOptional) [] ::
    fill (f :: z) t :: node r (hiddenLabel X o ps) us :: F) := hm
  rw [show referenceLabel X (g₁.node r).isOptional = referenceLabel X o by rw [ho]] at hm
  refine Does.bind (Q := fun _ g' => Laid b (node j (referenceLabel X o) [] ::
    fill (f :: z) t :: node r (hiddenLabel X o ps) us :: F) g') ⟨hm, h.bare⟩ fun _ g₂ h => ?_
  refine (does_replace (h.bring 1)).bind fun _ g₃ h => ?_
  exact (does_defer ((h.bring 2).bring 1) r).mono fun _ _ h => ⟨j, hj, h⟩

end Edit

end Ixml
