import Ixml.Pragma
import Ixml.Proofs.Grammar.Reading
import Ixml.Proofs.Simplify.Passes
import Ixml.Proofs.Work
import Ixml.Source

/-!
# Grammars whose pragmas are understood

A grammar that has been read is a store of the trees that were read, `IsSource` with all pragmas in their places.
Each pragma that is understood leaves its place and changes nothing but labels. In the end there are none, and
the grammar is sound (`exists_isUnderstood`, `IsUnderstood.sound`).
-/

namespace Ixml

open Layout Simplify

namespace Layout

variable {P : Label → List Construct → Prop} {z : List Frame} {f : Frame} {t u T : Layout} {i : NodeId} {l k : Label}
  {ts : List Layout}

/-- A layout gives way to another that no parent tells from it. -/
theorem Every.fill_alike (h : (fill z t).Every P) (hu : u.Every P)
    (hP : ∀ l bs as, P l (bs ++ t.kind :: as) → P l (bs ++ u.kind :: as)) : (fill z u).Every P := by
  cases z with
  | nil => exact hu
  | cons f z =>
    have := h.frame
    rw [List.map_append, List.map_cons] at this
    refine h.fill_congr hu ?_
    rw [List.map_append, List.map_cons]
    exact hP _ _ _ this

theorem Every.detach (h : (fill (f :: z) T).Every P) (hf : P f.label ((f.before ++ f.after).map kind)) :
    (fill z (node f.id f.label (f.before ++ f.after))).Every P := by
  rw [fill_cons] at h
  have hts := (every_node.mp h.of_fill).2
  refine h.fill_alike (every_node.mpr ⟨hf, fun v hv => hts v ?_⟩) fun _ _ _ h => h
  rw [List.mem_append] at hv
  rw [List.mem_append, List.mem_cons]
  exact hv.imp_right Or.inr

/-- The addresses of the pragmas that have not been understood. -/
def rawIds (t : Layout) : List NodeId :=
  ((spots none t).filter (·.label.kind.isPragma)).map (·.id)

theorem map_raw_spots (q : Option NodeId) (t : Layout) :
    ((spots q t).filter (·.label.kind.isPragma)).map (·.id) = rawIds t := by
  rw [rawIds, spots_eq, spots_eq, top, top, List.filter_cons, List.filter_cons]
  split <;> rfl

theorem map_raw_spotsAll (q : Option NodeId) (ts : List Layout) :
    ((spotsAll q ts).filter (·.label.kind.isPragma)).map (·.id) = ts.flatMap rawIds := by
  induction ts with
  | nil => rw [spotsAll_nil]; rfl
  | cons t ts ih => rw [spotsAll_cons, List.filter_append, List.map_append, ih, map_raw_spots, List.flatMap_cons]

theorem rawIds_node (i : NodeId) (l : Label) (ts : List Layout) :
    rawIds (node i l ts) = (if l.kind.isPragma then [i] else []) ++ ts.flatMap rawIds := by
  rw [rawIds, spots_node, List.filter_cons]
  split
  · rw [List.map_cons, map_raw_spotsAll]
    rfl
  · rw [map_raw_spotsAll]
    rfl

theorem rawIds_fill_perm (z : List Frame) (t : Layout) : (rawIds (fill z t)).Perm (rawIds t ++
    ((trailSpots z (0, default)).filter (·.label.kind.isPragma)).map (·.id)) := by
  have htrail : ((trailSpots z t.head).filter (·.label.kind.isPragma)).map (·.id) =
      ((trailSpots z (0, default)).filter (·.label.kind.isPragma)).map (·.id) := by
    cases z with
    | nil => rfl
    | cons f z =>
      rw [trailSpots, trailSpots, List.cons_append, List.cons_append, List.filter_cons, List.filter_cons]
      simp only [Frame.spot]
      by_cases hp : f.label.kind.isPragma = true <;> simp [hp]
  have hspots := map_raw_spots (parentOf z) t
  have := ((spots_fill_perm z t).filter (·.label.kind.isPragma)).map (·.id)
  rwa [List.filter_append, List.map_append, hspots, htrail] at this

/-- A pragma that is taken out of its place is raw no longer. -/
theorem rawIds_detach_perm (z : List Frame) (hl : l.kind.isPragma = true) :
    (rawIds (fill (f :: z) (node i l []))).Perm (i :: rawIds (fill z (node f.id f.label (f.before ++ f.after)))) := by
  have h := rawIds_fill_perm z (node f.id f.label (f.before ++ node i l [] :: f.after))
  have h' := rawIds_fill_perm z (node f.id f.label (f.before ++ f.after))
  rw [rawIds_node] at h h'
  simp only [List.flatMap_append, List.flatMap_cons, rawIds_node i, hl, if_true, List.flatMap_nil] at h h'
  classical
  rw [List.perm_iff_count] at h h' ⊢
  intro j
  have h1 := h j
  have h2 := h' j
  rw [fill_cons, h1, List.count_cons, h2]
  simp only [List.count_append, List.count_cons, List.count_nil]
  omega

/-- The names of the rules below the root, in order. -/
def ruleNames (t : Layout) : List (Option String) :=
  (t.children.filter (·.kind.isRule)).map (·.label.name)

theorem ruleNames_fill_congr (hn : t.label.name = u.label.name) (hk : t.kind.isRule = u.kind.isRule) :
    ruleNames (fill (f :: z) t) = ruleNames (fill (f :: z) u) := by
  induction z generalizing f t u with
  | nil =>
    simp only [ruleNames, fill_cons, fill_nil, children_node, List.filter_append, List.filter_cons, hk]
    split <;> simp [hn]
  | cons f' z ih =>
    rw [fill_cons f, fill_cons f]
    exact ih rfl rfl

end Layout

/-! ### What a pragma may change -/

namespace Pragma

variable {n : String} {k t : Construct} {bs as ks : List Construct}

@[simp] theorem isPragma_setRename : (setRename n k).isPragma = k.isPragma := by
  cases k <;> rfl

@[simp] theorem isRule_setRename : (setRename n k).isRule = k.isRule := by
  cases k <;> rfl

@[simp] theorem isNonterminal_setRename : (setRename n k).isNonterminal = k.isNonterminal := by
  cases k <;> rfl

@[simp] theorem isFactor_setRename : (setRename n k).isFactor = k.isFactor := by
  cases k <;> rfl

@[simp] theorem isMember_setRename : (setRename n k).isMember = k.isMember := by
  cases k <;> rfl

@[simp] theorem isSet_setRename : (setRename n k).isSet = k.isSet := by
  cases k <;> rfl

@[simp] theorem hasFactor_setRename : (setRename n k).hasFactor = k.hasFactor := by
  cases k <;> rfl

@[simp] theorem isReadable_setRename : (setRename n k).IsReadable ↔ k.IsReadable := by
  cases k <;> exact Iff.rfl

@[simp] theorem isVersion_setRename : (setRename n k).isVersion = k.isVersion := by
  cases k <;> rfl

@[simp] theorem setRename_eq_iff (ht : t = .alt ∨ t = .alts ∨ t = .sep ∨ t = .prolog ∨ t = .ixml) :
    setRename n k = t ↔ k = t := by
  rcases ht with rfl | rfl | rfl | rfl | rfl <;> cases k <;> simp [setRename]

@[simp] theorem isTop_setRename : (setRename n k).isTop = k.isTop := by
  cases k <;> simp [setRename, Construct.isTop, Construct.isRule]

theorem setRename_setRename (m : String) : setRename m (setRename n k) = setRename m k := by
  cases k <;> rfl

theorem fits_setRename : (setRename n k).fits ks = k.fits ks := by
  rcases ks with _ | ⟨a, _ | ⟨b, ks⟩⟩ <;> cases k <;> simp [setRename, Construct.fits]

theorem fits_map_setRename : k.fits (ks.map (setRename n)) = k.fits ks := by
  rw [Bool.eq_iff_iff]
  match ks with
  | [] => rfl
  | [a] => cases k <;> simp [Construct.fits]
  | [a, b] => cases k <;> simp [Construct.fits]
  | a :: b :: c :: ks => cases k <;> simp [Construct.fits]

theorem fits_congr_setRename : k.fits (bs ++ setRename n t :: as) = k.fits (bs ++ t :: as) := by
  rw [← fits_map_setRename (n := ""), ← @fits_map_setRename "" k (bs ++ t :: as)]
  simp [setRename_setRename]

end Pragma

structure Relabels (l l' : Label) : Prop where
  name : l'.name = l.name
  kind : l'.kind = l.kind ∨ ∃ n, l'.kind = Pragma.setRename n l.kind

namespace Relabels

variable {l l' : Label} {ks bs as : List Construct}

theorem isPragma (h : Relabels l l') : l'.kind.isPragma = l.kind.isPragma := by
  rcases h.kind with hk | ⟨n, hk⟩ <;> simp [hk]

theorem isRule (h : Relabels l l') : l'.kind.isRule = l.kind.isRule := by
  rcases h.kind with hk | ⟨n, hk⟩ <;> simp [hk]

theorem isSet (h : Relabels l l') : l'.kind.isSet = l.kind.isSet := by
  rcases h.kind with hk | ⟨n, hk⟩ <;> simp [hk]

theorem hasFactor (h : Relabels l l') : l'.kind.hasFactor = l.kind.hasFactor := by
  rcases h.kind with hk | ⟨n, hk⟩ <;> simp [hk]

theorem isReadable (h : Relabels l l') : l'.kind.IsReadable ↔ l.kind.IsReadable := by
  rcases h.kind with hk | ⟨n, hk⟩ <;> simp [hk]

theorem eq_ixml (h : Relabels l l') (hl : l.kind = .ixml) : l'.kind = .ixml := by
  rcases h.kind with hk | ⟨n, hk⟩ <;> simp [hk, hl, Pragma.setRename]

theorem written (h : Relabels l l') (hw : Written l ks) : Written l' ks where
  fits := by
    rcases h.kind with hk | ⟨n, hk⟩
    · rw [hk]
      exact hw.fits
    · rw [hk, Pragma.fits_setRename]
      exact hw.fits
  factor hf := hw.factor (h.hasFactor ▸ hf)
  members hs := hw.members (h.isSet ▸ hs)
  leaf hp := hw.leaf (h.isPragma ▸ hp)
  identifier := by
    rw [Label.nameText, h.name]
    exact hw.identifier
  named hr := by
    rw [h.name]
    exact hw.named (h.isRule ▸ hr)

theorem written_congr {k : Label} (h : Relabels l l') (hw : Written k (bs ++ l.kind :: as)) :
    Written k (bs ++ l'.kind :: as) := by
  obtain ⟨hfit, hfactor, hmem, hleaf, hident, hnamed⟩ := hw
  refine ⟨?_, fun hf => ?_, fun hs => ?_, fun hp => absurd (hleaf hp) (by simp), hident, hnamed⟩
  · rw [List.filter_append, List.filter_cons] at hfit ⊢
    rw [h.isPragma]
    split
    · rename_i hp
      rw [if_pos hp] at hfit
      rcases h.kind with hk | ⟨n, hk⟩
      · rwa [hk]
      · rwa [hk, Pragma.fits_congr_setRename]
    · rename_i hp
      rwa [if_neg hp] at hfit
  · have hself := hfactor hf
    rw [List.filter_eq_self] at hself ⊢
    intro c hc
    rcases List.mem_append.mp hc with hc | hc
    · exact hself c (List.mem_append_left _ hc)
    · rcases List.mem_cons.mp hc with rfl | hc
      · rw [h.isPragma]
        exact hself l.kind (by simp)
      · exact hself c (by simp [hc])
  · have hmem := hmem hs
    simp only [List.mem_filter, List.mem_append, List.mem_cons] at hmem ⊢
    rintro c ⟨hc | rfl | hc, hp⟩
    · exact hmem c ⟨.inl hc, hp⟩
    · rw [h.isPragma] at hp
      exact h.isReadable.mpr (hmem _ ⟨.inr (.inl rfl), hp⟩)
    · exact hmem c ⟨.inr (.inr hc), hp⟩

end Relabels

/-! ### Grammars as they are read -/

/-- The layout of a grammar as it was read, apart from pragmas that are understood; those with the addresses `R`
are still in their places. -/
structure IsSource (start : Option String) (R : List NodeId) (t : Layout) : Prop where
  id : t.id = Grammar.root
  kind : t.kind = .ixml
  written : t.Every Written
  start : (ruleNames t).head? = some start
  raw : R.Perm (rawIds t)

namespace IsSource

variable {start : Option String} {R : List NodeId} {z : List Frame} {f : Frame} {i : NodeId} {l l' : Label}
  {ts : List Layout} {t : Layout}

theorem detach (h : IsSource start (i :: R) (fill (f :: z) (node i l []))) (hl : l.kind.isPragma = true) :
    IsSource start R (fill z (node f.id f.label (f.before ++ f.after))) where
  id := by
    rw [← h.id]
    cases z with
    | nil => rfl
    | cons f' z => exact id_fill_cons ..
  kind := by
    rw [← h.kind]
    cases z with
    | nil => rfl
    | cons f' z => exact kind_fill_cons ..
  written := by
    refine h.written.detach ?_
    obtain ⟨hfit, hfactor, hmem, hleaf, hmade, hnamed⟩ := h.written.frame
    have hkids : ((f.before ++ f.after).map Layout.kind).filter (!·.isPragma) =
        ((f.before ++ node i l [] :: f.after).map Layout.kind).filter (!·.isPragma) := by
      simp [hl]
    refine ⟨hkids ▸ hfit, fun hf => ?_, hkids ▸ hmem, fun hp => absurd (hleaf hp) (by simp), hmade, hnamed⟩
    -- what has a factor has no pragma that could be taken away
    have hself := List.filter_eq_self.mp (hfactor hf) l.kind (by simp)
    rw [hl] at hself
    cases hself
  start := by
    rw [← h.start]
    congr 1
    cases z with
    | nil =>
      have hrule : l.kind.isRule = false := by
        cases hk : l.kind <;> simp_all [Construct.isPragma, Construct.isRule]
      simp [ruleNames, fill_cons, hrule]
    | cons f' z => exact ruleNames_fill_congr rfl rfl
  raw := (h.raw.trans (rawIds_detach_perm z hl)).cons_inv

theorem relabel (h : IsSource start R (fill z (node i l ts))) (hl : Relabels l l') :
    IsSource start R (fill z (node i l' ts)) where
  id := by
    rw [← h.id]
    cases z with
    | nil => rfl
    | cons f z => exact id_fill_cons ..
  kind := by
    cases z with
    | nil => exact hl.eq_ixml h.kind
    | cons f z => exact (kind_fill_cons ..).trans h.kind
  written := by
    obtain ⟨hw, hts⟩ := every_node.mp h.written.of_fill
    exact h.written.fill_alike (every_node.mpr ⟨hl.written hw, hts⟩) fun _ _ _ => hl.written_congr
  start := by
    rw [← h.start]
    congr 1
    cases z with
    | nil => rfl
    | cons f z => exact ruleNames_fill_congr hl.name hl.isRule
  raw := by
    have h1 := rawIds_fill_perm z (node i l ts)
    have h2 := rawIds_fill_perm z (node i l' ts)
    rw [rawIds_node] at h1 h2
    rw [hl.isPragma] at h2
    exact h.raw.trans (h1.trans h2.symm)

/-- A pragma that is left stands below another node. -/
theorem exists_trail (h : IsSource start (i :: R) t) :
    ∃ f z l, t = fill (f :: z) (node i l []) ∧ l.kind.isPragma = true := by
  have hi : i ∈ rawIds t := h.raw.mem_iff.mp (List.mem_cons_self ..)
  obtain ⟨s, hs, rfl⟩ := List.mem_map.mp hi
  obtain ⟨hs, hp⟩ := List.mem_filter.mp hs
  obtain ⟨z, ⟨i, l, ts⟩, rfl, rfl⟩ := exists_fill_of_mem_spots [] hs
  replace hp : l.kind.isPragma = true := hp
  obtain rfl : ts = [] := by simpa using (every_node.mp h.written.of_fill).1.leaf hp
  cases z with
  | nil =>
    have hk : l.kind = .ixml := h.kind
    rw [show l.kind.isPragma = false by rw [hk]; rfl] at hp
    cases hp
  | cons f z => exact ⟨f, z, l, rfl, hp⟩

end IsSource

/-- The pragmas with the addresses `R` are all that is left to understand of a grammar that was read. -/
def Unread (R : List NodeId) (g : Grammar) : Prop :=
  ∃ b t junk, Laid b (t :: junk) g ∧ b.waiting = [] ∧ b.madeUp = 0 ∧ IsSource b.start R t

variable {R : List NodeId} {g : Grammar} {i : NodeId}

theorem Unread.of_nodes_eq {g' : Grammar} (h : Unread R g) (hn : g'.nodes = g.nodes)
    (hs : g'.start = g.start) (hm : g'.madeUp = g.madeUp) (hw : g'.waiting = g.waiting) : Unread R g' := by
  obtain ⟨b, t, junk, hl, hbw, hbm, ht⟩ := h
  obtain ⟨hl, rfl⟩ := hl
  refine ⟨g'.bare, t, junk, ⟨⟨fun i n => ?_, hl.nodup⟩, rfl⟩, hw.trans hbw, hm.trans hbm, ?_⟩
  · rw [hn]
    exact hl.cells i n
  · rw [show g'.bare.start = g.bare.start from hs]
    exact ht

theorem Unread.relabel {b : Grammar} {z : List Frame} {l : Label} {ts junk : List Layout}
    (h : Laid b (fill z (node i l ts) :: junk) g) (hw : b.waiting = []) (hm : b.madeUp = 0)
    (ht : IsSource b.start R (fill z (node i l ts))) (f : Label → Label) (hf : Relabels l (f l)) :
    Unread R (g.modify i fun n => { n with toLabel := f n.toLabel }) :=
  ⟨b, _, junk, ⟨h.lays.modify_label f, h.bare⟩, hw, hm, ht.relabel hf⟩

/-- A pragma that is taken out of its place leaves the node that it was written on. -/
theorem Unread.detach (h : Unread (i :: R) g) : ∃ (b : Grammar) (f : Frame) (z : List Frame) (junk : List Layout),
    g.parent i = some f.id ∧ Laid b (fill z (node f.id f.label (f.before ++ f.after)) :: junk) (g.detach i) ∧ b.waiting = [] ∧
    b.madeUp = 0 ∧ IsSource b.start R (fill z (node f.id f.label (f.before ++ f.after))) := by
  obtain ⟨b, t, junk, hl, hw, hm, ht⟩ := h
  obtain ⟨f, z, l, rfl, hp⟩ := ht.exists_trail
  refine ⟨b, f, z, node i l [] :: junk, ?_, ?_, hw, hm, ht.detach hp⟩
  · exact hl.lays.parent_eq (Lays.spots_subset (List.mem_cons_self ..) (top_mem_spots _ _))
  · exact (Edit.does_detach (T := node i l []) hl).bring 1

theorem Unread.of_detach (h : Unread (i :: R) g) : Unread R (g.detach i) := by
  obtain ⟨b, f, z, junk, -, hl, hw, hm, ht⟩ := h.detach
  exact ⟨b, _, junk, hl, hw, hm, ht⟩

theorem Unread.perm {R' : List NodeId} (h : Unread R g) (hp : R.Perm R') : Unread R' g := by
  obtain ⟨b, t, junk, hl, hw, hm, ht⟩ := h
  exact ⟨b, t, junk, hl, hw, hm, ht.id, ht.kind, ht.written, ht.start, hp.symm.trans ht.raw⟩

/-! ### Understanding pragmas -/

namespace Pragma

open Work

variable {b : Grammar} {z : List Frame} {l : Label} {ts junk : List Layout}

theorem leaves_bindPrefix (nsPrefix data : String) (h : Unread R g) : (bindPrefix nsPrefix data).Leaves g (Unread R) := by
  refine .current ?_
  dsimp only
  split
  · exact .warn _ h
  · split
    · exact .warn _ h
    · split
      · exact .warn _ h
      · refine Leaves.bind (.detail _ h) (fun _ h => h) fun _ g' h => .update ?_
        exact h.of_nodes_eq rfl rfl rfl rfl

theorem leaves_localName? (name : String) (g : Grammar) : (localName? name).Leaves g (· = g) := by
  refine .current ?_
  split
  · dsimp only
    split
    · exact .throw _ rfl
    · split
      · exact .pure rfl
      · exact Leaves.bind (.warn (P := (· = g)) _ rfl) (fun _ h => h) fun _ g' hg => .pure hg
  · exact Leaves.bind (.detail (P := (· = g)) _ rfl) (fun _ h => h) fun _ g' hg => .pure hg

theorem leaves_directiveOf? (name data : String) (g : Grammar) : (directiveOf? name data).Leaves g (· = g) := by
  refine (leaves_localName? name g).bind (fun _ h => h) fun o g' hg => ?_
  subst hg
  split
  · exact .pure rfl
  · dsimp only
    split
    · exact .pure rfl
    · exact .throw _ rfl
    · exact Leaves.bind (.warn (P := (· = g')) _ rfl) (fun _ h => h) fun _ g'' hg => .pure hg

/-- A pragma changes nothing but the label of the node that it was written on. -/
theorem leaves_give (h : Laid b (fill z (node i l ts) :: junk) g) (hw : b.waiting = []) (hm : b.madeUp = 0)
    (ht : IsSource b.start R (fill z (node i l ts))) (p : Pragma) : (give i p).Leaves g (Unread R) := by
  have hself : Unread R g := ⟨b, _, junk, h, hw, hm, ht⟩
  have hpush : Unread R (push i p g) :=
    Unread.relabel h hw hm ht (fun l => { l with pragmas := l.pragmas ++ [p] }) ⟨rfl, Or.inl rfl⟩
  refine .current ?_
  split
  · rename_i name _
    split
    · exact .warn _ hself
    · exact .throw _ hself
    · have hl : Relabels l { l with kind := setRename name l.kind } := ⟨rfl, Or.inr ⟨name, rfl⟩⟩
      have h' : Laid b (fill z (node i { l with kind := setRename name l.kind } ts) :: junk)
          (g.modify i fun n => { n with kind := setRename name n.kind }) :=
        ⟨h.lays.modify_label fun l => { l with kind := setRename name l.kind }, h.bare⟩
      exact .update (Unread.relabel h' hw hm (ht.relabel hl) (fun l => { l with pragmas := l.pragmas ++ [p] })
        ⟨rfl, Or.inl rfl⟩)
  · exact .update (hpush.of_nodes_eq rfl rfl rfl rfl)
  · split
    · exact .update hpush
    · exact .warn _ hself
  · exact .update hpush

/-- A pragma leaves its place, whether what it asks for makes sense or not. -/
theorem leaves_understand (p : Raw) (h : Unread (p.id :: R) g) : (understand p).Leaves g (Unread R) := by
  obtain ⟨b, f, z, junk, hparent, hl, hw, hm, ht⟩ := h.detach
  refine .current (Leaves.bind (.update (P := (· = g.detach p.id)) rfl) (fun _ hg => hg ▸ h.of_detach) fun _ g' hg => ?_)
  subst hg
  rw [hparent]
  refine (leaves_directiveOf? _ _ _).bind (fun _ hg => hg ▸ h.of_detach) fun o g' hg => ?_
  subst hg
  split
  · exact leaves_give hl hw hm ht _
  · exact .pure h.of_detach

theorem ensures_declareAll (ps : List Raw) (K : List NodeId) (h : Unread (K ++ ps.map (·.id)) g) :
    (declareAll ps).Ensures g fun qs g' => Unread (K ++ qs.map (·.id)) g' := by
  induction ps generalizing g K with
  | nil => exact .pure h
  | cons p ps ih =>
    have hfront : Unread (p.id :: (K ++ ps.map (·.id))) g := h.perm List.perm_middle
    rw [declareAll]
    split
    · refine (leaves_bindPrefix _ _ hfront).ensures.bind fun _ g' hg => (Ensures.update _ g').bind fun _ g'' hg' => ?_
      subst hg'
      exact ih K hg.of_detach
    · refine (Ensures.warn _ g).bind fun _ g' hg => (Ensures.update _ g').bind fun _ g'' hg' => ?_
      subst hg hg'
      exact ih K hfront.of_detach
    · refine (ih (K ++ [p.id]) (by simpa using h)).bind fun qs g' hg => .pure ?_
      simpa using hg

theorem ensures_understands (ps : List Raw) (h : Unread (ps.map (·.id)) g) :
    (ps.forM understand).Ensures g fun _ g' => Unread [] g' := by
  induction ps generalizing g with
  | nil => exact .pure h
  | cons p ps ih => exact (leaves_understand p h).ensures.bind fun _ g' hg => ih hg

theorem map_id_rawAll {t : Layout} (h : Lays g (t :: junk)) (hid : t.id = Grammar.root) :
    (rawAll g).map (·.id) = rawIds t := by
  have hnodes : g.nodesFrom Grammar.root = t.ids := by
    rw [← hid]
    exact h.nodesFrom_eq (z := []) (List.mem_cons_self ..)
  rw [rawAll, hnodes, ← map_id_spots_eq_ids none, rawIds, List.filterMap_map, List.map_filterMap,
    ← List.filterMap_eq_filter, List.map_filterMap]
  refine List.filterMap_congr fun s hs => ?_
  have hk := h.kind_eq (mem_spotsAll.mpr ⟨t, List.mem_cons_self .., hs⟩)
  rw [Function.comp_apply, raw?, hk]
  cases hl : s.label.kind <;> simp [Option.guard, hl, Construct.isPragma]

/-- When all pragmas are understood, none is left. -/
theorem ensures_understandAll (h : Unread ((rawAll g).map (·.id)) g) :
    understandAll.Ensures g fun _ g' => Unread [] g' := by
  refine .current ((ensures_declareAll _ [] h).bind fun qs g' hg => ?_)
  exact ensures_understands qs hg

end Pragma

/-! ### The store of a forest -/

theorem ruleNames_append_singleton (i : NodeId) (l : Label) (J : List Layout) (T : Layout) :
    ruleNames (node i l (J ++ [T])) =
      ruleNames (node i l J) ++ if T.kind.isRule then [T.label.name] else [] := by
  rw [ruleNames, ruleNames, children_node, children_node, List.filter_append, List.map_append, List.filter_cons]
  split <;> rfl

/-- What is below the root when some trees of a forest have been added. -/
structure Planted (J : List Layout) (g : Grammar) : Prop where
  laid : ∃ b, Laid b [node Grammar.root { kind := .ixml } J] g ∧ b.waiting = [] ∧ b.madeUp = 0 ∧
    b.start = (ruleNames (node Grammar.root { kind := .ixml } J)).head?.join
  named : ∀ t ∈ J, t.kind.isRule = true → t.label.name.isSome = true

theorem Laid.holds {rootLabel : Label} {b g : Grammar} {J junk : List Layout}
    (h : Laid b (node Grammar.root rootLabel J :: junk) g) (hw : b.waiting = []) : Holds rootLabel b J [] g := by
  refine ⟨junk, ?_⟩
  rw [show ({ b with waiting := [].map Layout.id } : Grammar) = b by rw [List.map_nil, ← hw]]
  exact h

theorem planted_empty : Planted [] {} := by
  refine ⟨⟨_, ⟨⟨fun i n => ?_, by simp⟩, rfl⟩, rfl, rfl, rfl⟩, by simp⟩
  have hnode : (⟨Grammar.root, { kind := .ixml }, none, []⟩ : Spot).cell = (0, { kind := .ixml }) := rfl
  simp only [spotsAll_cons, spots_node, spotsAll_nil, List.append_nil, List.map_cons, List.map_nil, List.mem_singleton,
    hnode, Prod.mk.injEq]
  show i = 0 ∧ n = { kind := .ixml } ↔ #[({ kind := .ixml } : Node)][i]? = some n
  cases i with
  | zero => simp [eq_comm]
  | succ i => simp

theorem Planted.addTop {J : List Layout} {g : Grammar} (h : Planted J g) {t : Tree}
    (ht : t.kind.isRule = true → t.label.name.isSome = true) :
    ∃ T : Layout, T.erase = t ∧ Planted (J ++ [T]) (g.addTop t) := by
  obtain ⟨⟨b, ⟨hl, rfl⟩, hw, hm, hs⟩, hn⟩ := h
  obtain ⟨T, rfl, hid, hl⟩ := hl.addTree t
  rw [kind_erase, label_erase] at ht
  have hbare := Edit.bare_addTree g T.erase
  have hl' : Laid g.bare (node Grammar.root { kind := .ixml } J :: [T]) (g.addTree T.erase) := ⟨hl.swap, hbare⟩
  have hn' : ∀ u ∈ J ++ [T], u.kind.isRule = true → u.label.name.isSome = true := fun u hu => by
    rcases List.mem_append.mp hu with hu | hu
    · exact hn u hu
    · rwa [List.mem_singleton.mp hu]
  have happ := Edit.does_append (z := []) hl'
  have hlabel : ((g.addTree T.erase).node g.next).name = T.label.name := by
    obtain ⟨i, l, ts⟩ := T
    rw [← hid]
    exact congrArg Label.name (hl'.toLabel_eq (z := []) (l := l) (c := ts) (by simp))
  refine ⟨T, rfl, ?_, hn'⟩
  have hkind : T.erase.label.kind.isRule = T.kind.isRule := by rw [label_erase]; rfl
  rw [Grammar.addTop, hkind, ruleNames_append_singleton]
  split
  · rename_i hr
    refine ⟨{ g.bare with start := g.start <|> T.label.name }, ?_, hw, hm, ?_⟩
    · have hstart : (g.addTree T.erase).start = g.start := by
        have := congrArg Grammar.start hbare
        exact this
      rw [Grammar.joinRule, hlabel, hstart, ← hid]
      exact ⟨⟨happ.lays.cells, happ.lays.nodup⟩,
        congrArg (fun b : Grammar => { b with start := g.start <|> T.label.name }) happ.bare⟩
    · rw [show g.start = g.bare.start from rfl, hs]
      cases hnames : ruleNames (node Grammar.root { kind := .ixml } J) with
      | nil => simp
      | cons o os =>
        -- the first rule has a name already
        have : o.isSome = true := by
          have ho : o ∈ ruleNames (node Grammar.root { kind := .ixml } J) := by rw [hnames]; exact List.mem_cons_self ..
          obtain ⟨u, hu, rfl⟩ := List.mem_map.mp ho
          obtain ⟨hu, hur⟩ := List.mem_filter.mp hu
          exact hn u hu hur
        cases o with
        | none => cases this
        | some n => rfl
  · refine ⟨g.bare, ?_, hw, hm, ?_⟩
    · rw [← hid]
      exact happ
    · rw [hs, List.append_nil]

theorem planted_foldl {ts : List Tree} {J : List Layout} {g : Grammar} (h : Planted J g)
    (hts : ∀ t ∈ ts, t.kind.isRule = true → t.label.name.isSome = true) :
    ∃ us : List Layout, us.map erase = ts ∧ Planted (J ++ us) (ts.foldl Grammar.addTop g) := by
  induction ts generalizing J g with
  | nil => exact ⟨[], rfl, by simpa using h⟩
  | cons t ts ih =>
    obtain ⟨T, rfl, hT⟩ := h.addTop (hts t (List.mem_cons_self ..))
    obtain ⟨us, rfl, hus⟩ := ih hT fun u hu => hts u (List.mem_cons_of_mem _ hu)
    exact ⟨T :: us, rfl, by simpa using hus⟩

/-- A grammar that has been read has all its pragmas in their places. -/
theorem unread_of_read {text : String} {g : Grammar} (h : Grammar.read text = .ok g) :
    Unread ((Pragma.rawAll g).map (·.id)) g := by
  obtain ⟨ts, rfl, hts, r, hr, hrule⟩ := exists_written_of_read h
  have hnamed : ∀ t ∈ ts, t.kind.isRule = true → t.label.name.isSome = true := fun t ht hk => by
    obtain ⟨l, us⟩ := t
    exact (Tree.every_node.mp (hts _ ht).1).1.named hk
  obtain ⟨J, rfl, hJ⟩ := planted_foldl planted_empty hnamed
  rw [List.nil_append] at hJ
  obtain ⟨⟨b, hl, hw, hm, hs⟩, hn⟩ := hJ
  have hraw : (Pragma.rawAll (Grammar.ofForest (J.map erase))).map (·.id) = _ := Pragma.map_id_rawAll hl.lays rfl
  refine ⟨b, _, [], hl, hw, hm, rfl, rfl, ?_, ?_, by rw [hraw]⟩
  · have hroot {ks : List Construct} (hfit : Construct.ixml.fits (ks.filter (!·.isPragma)) = true) :
        Written { kind := .ixml } ks :=
      ⟨hfit, nofun, nofun, fun h => (by cases h), isIdentifier_empty, fun h => (by cases h)⟩
    refine every_node.mpr ⟨hroot ?_, fun t ht => (hts t.erase (List.mem_map_of_mem ht)).1⟩
    simp only [Construct.fits, List.all_eq_true, List.mem_filter, List.mem_map]
    rintro k ⟨⟨t, ht, rfl⟩, hk⟩
    have := (hts t.erase (List.mem_map_of_mem ht)).2
    rw [kind_erase] at this
    simpa [show t.kind.isPragma = false by simpa using hk] using this
  · obtain ⟨u, hu, rfl⟩ := List.mem_map.mp hr
    rw [kind_erase] at hrule
    have hmem : u.label.name ∈ ruleNames (node Grammar.root { kind := .ixml } J) :=
      List.mem_map_of_mem (List.mem_filter.mpr ⟨hu, hrule⟩)
    rw [hs]
    cases hnames : ruleNames (node Grammar.root { kind := .ixml } J) with
    | nil =>
      rw [hnames] at hmem
      cases hmem
    | cons o os => simp

/-! ### What a text means -/

/-- A grammar whose pragmas are understood: nothing waits, no name is made up, and the first rule is the start. -/
structure IsUnderstood (rootLabel : Label) (b : Grammar) (J : List Layout) (g : Grammar) : Prop where
  holds : Holds rootLabel b J [] g
  root : rootLabel.kind = .ixml
  madeUp : b.madeUp = 0
  shape : ∀ t ∈ J, t.Every fun l ks => l.kind.fits ks = true ∧ ¬IsMade l.nameText
  texts : ∀ t ∈ J, t.Every fun l _ => Xml.IsText l.nameText
  members : ∀ t ∈ J, t.Every fun l ks => l.kind.isSet = true → ∀ k ∈ ks, k.IsReadable
  top : ∀ t ∈ J, t.kind.isTop = true
  named : ∀ t ∈ J, t.kind.isRule = true → t.label.name.isSome = true
  start : (J.filter (·.kind.isRule)).head?.map (·.label.name) = some b.start

theorem Unread.exists_isUnderstood (h : Unread [] g) :
    ∃ (rootLabel : Label) (b : Grammar) (J : List Layout), IsUnderstood rootLabel b J g := by
  obtain ⟨b, ⟨i, l, J⟩, junk, hl, hw, hm, hid, hkind, hwritten, hstart, hraw⟩ := h
  obtain rfl : i = Grammar.root := hid
  have hkind : l.kind = .ixml := hkind
  obtain ⟨hlw, hJ⟩ := every_node.mp hwritten
  -- no node is a pragma, so that all children count
  have hno : (node Grammar.root l J).Every fun l _ => l.kind.isPragma = false := by
    refine every_of_spots (q := none) fun s hs => ?_
    by_contra hp
    have : s.id ∈ rawIds (node Grammar.root l J) :=
      List.mem_map_of_mem (List.mem_filter.mpr ⟨hs, by simpa using hp⟩)
    rw [← hraw.nil_eq] at this
    cases this
  have hfilter : ∀ l ks, (∀ k ∈ ks, k.isPragma = false) → Written l ks → l.kind.fits ks = true ∧ ¬IsMade l.nameText :=
    fun l ks hks hw => by
      have hfit := hw.fits
      rw [List.filter_eq_self.mpr fun k hk => by simp [hks k hk]] at hfit
      exact ⟨hfit, hw.identifier.notMade⟩
  have hkids := every_and (every_kids (p := (·.isPragma = false)) hno) hwritten
  have hall : (node Grammar.root l J).Every fun l ks => l.kind.fits ks = true ∧ ¬IsMade l.nameText :=
    hkids.mono fun l ks ⟨hks, hw⟩ => hfilter l ks hks hw
  have hmembers : ∀ t ∈ J, t.Every fun l ks => l.kind.isSet = true → ∀ k ∈ ks, k.IsReadable := fun t ht =>
    ((every_node.mp hkids).2 t ht).mono fun l ks ⟨hks, hw⟩ hs k hk =>
      hw.members hs k (List.mem_filter.mpr ⟨hk, by simp [hks k hk]⟩)
  obtain ⟨⟨hfit, -⟩, hts⟩ := every_node.mp hall
  have htexts : ∀ t ∈ J, t.Every fun l _ => Xml.IsText l.nameText := fun t ht =>
    (hJ t ht).mono fun _ _ hw => hw.identifier.isText
  refine ⟨l, b, J, hl.holds hw, hkind, hm, hts, htexts, hmembers, fun t ht => ?_, fun t ht hr => ?_, ?_⟩
  · rw [hkind] at hfit
    exact List.all_eq_true.mp hfit _ (List.mem_map_of_mem ht)
  · obtain ⟨j, k, us⟩ := t
    exact (every_node.mp (hJ _ ht)).1.named hr
  · rw [← hstart, ruleNames, List.head?_map]
    rfl

/-- What is left of a text when its pragmas are understood. -/
theorem exists_isUnderstood {source : String} (h : Grammar.understood source = .ok g) :
    ∃ (rootLabel : Label) (b : Grammar) (J : List Layout), IsUnderstood rootLabel b J g := by
  unfold Grammar.understood at h
  cases hr : Grammar.read source with
  | error e =>
    rw [hr] at h
    cases h
  | ok g₀ =>
    rw [hr] at h
    cases hv : (Pragma.understandAll.perform g₀).1 with
    | error e =>
      simp only [bind, Except.bind, hv] at h
      cases h
    | ok a =>
      simp only [bind, Except.bind, hv] at h
      cases h
      exact ((Pragma.ensures_understandAll (unread_of_read hr)).perform hv).exists_isUnderstood

namespace IsUnderstood

variable {rootLabel : Label} {b : Grammar} {J : List Layout}

theorem sound (h : IsUnderstood rootLabel b J g) : Stock.Sound ⟨J, b.madeUp⟩ where
  proper t ht := (h.shape t ht).mono fun _ _ ⟨hfit, hm⟩ => ⟨hfit, fun h => absurd h hm, fun h => absurd h hm⟩
  top := h.top
  named := h.named
  empty t ht hr := by
    obtain ⟨i, l, ts⟩ := t
    have hname : l.nameText = emptyRule := hr.2
    exact absurd (hname ▸ isMade_emptyRule) (every_node.mp (h.shape _ ht)).1.2
  shared := Or.inr fun t ht => (h.shape t ht).mono fun l _ ⟨_, hm⟩ hn => hm (hn ▸ isMade_emptyRule)

theorem exists_start (h : IsUnderstood rootLabel b J g) :
    ∃ t ∈ J, t.kind.isRule = true ∧ t.label.name = b.start := by
  have hs := h.start
  cases hf : (J.filter (·.kind.isRule)).head? with
  | none =>
    rw [hf] at hs
    cases hs
  | some t =>
    rw [hf, Option.map_some, Option.some.injEq] at hs
    obtain ⟨ht, hr⟩ := List.mem_filter.mp (List.mem_of_mem_head? hf)
    exact ⟨t, ht, hr, hs⟩

theorem isSome_start (h : IsUnderstood rootLabel b J g) : b.start.isSome = true := by
  obtain ⟨t, ht, hr, hn⟩ := h.exists_start
  rw [← hn]
  exact h.named t ht hr

end IsUnderstood

end Ixml
