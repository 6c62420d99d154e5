import Ixml.Proofs.Grammar.Declaring

/-!
# What becomes of pragmas

Every pragma of a grammar that was read is taken out of its place, and what it asks for is attached to the node that it
was written on or passed over. Nothing else changes (`attaches_of_understood`). The bindings do not change any more when
the first prefix is looked up, so that it does not matter where a prefix is declared.
-/

namespace Ixml.Pragma

open Layout Work

theorem ensures_resolved (name : String) (g : Grammar) :
    (localName? name).Ensures g fun o g' => g' = g ∧ ∃ uri localName, resolved? g.bindings name = some (uri, localName) ∧
      o = if uri = ownNamespace then some localName else none := by
  refine .current ?_
  split
  · rename_i nsPrefix rest hs
    dsimp only
    split
    · exact .throw _ _
    · rename_i uri hu
      have hr : resolved? g.bindings name = some (uri, String.ofList rest) := by
        rw [resolved?, hs]
        exact congrArg (Option.map _) hu
      split
      · rename_i he
        exact .pure ⟨rfl, uri, _, hr, by rw [if_pos (by simpa using he)]⟩
      · rename_i he
        refine (Ensures.warn _ g).bind fun _ g' hg => .pure ⟨hg, uri, _, hr, ?_⟩
        rw [if_neg (by simpa using he)]
  · rename_i hs
    refine (Ensures.detail _ g).bind fun _ g' hg => .pure ⟨hg, ownNamespace, name, ?_, by rw [if_pos rfl]⟩
    rw [resolved?, hs]

theorem meant?_eq {bs : Assoc} {name data localName : String} (h : resolved? bs name = some (ownNamespace, localName)) :
    meant? bs name data = (directive? localName (Text.trim data)).bind Except.toOption := by
  rw [meant?, h, Option.bind_some]
  exact if_pos rfl

theorem isSound_of_ne {bs : Assoc} {name localName : String} (data : String)
    (h : resolved? bs name = some (ownNamespace, localName))
    (hs : ∀ reason, directive? localName (Text.trim data) ≠ some (.error reason)) : IsSound bs name data := by
  refine ⟨by rw [h]; rfl, fun l reason hl => ?_⟩
  rw [h, Option.some.injEq, Prod.mk.injEq] at hl
  rw [← hl.2]
  exact hs reason

theorem ensures_meant (name data : String) (g : Grammar) :
    (directiveOf? name data).Ensures g fun o g' =>
      g' = g ∧ o = meant? g.bindings name data ∧ IsSound g.bindings name data := by
  refine (ensures_resolved name g).bind fun o g' ⟨hg, uri, localName, hr, ho⟩ => ?_
  subst hg
  by_cases huri : uri = ownNamespace
  · subst huri
    rw [if_pos rfl] at ho
    rw [ho, meant?_eq hr]
    have hs := isSound_of_ne data hr
    dsimp only
    generalize directive? localName (Text.trim data) = o at hs
    match o with
    | some (.ok d) => exact .pure ⟨rfl, rfl, hs nofun⟩
    | some (.error reason) => exact .throw _ _
    | none => exact (Ensures.warn _ g').bind fun _ g'' hg => .pure ⟨hg, rfl, hs nofun⟩
  · rw [if_neg huri] at ho
    rw [ho]
    refine .pure ⟨rfl, ?_, by rw [hr]; rfl, fun l reason hl => ?_⟩
    · rw [meant?, hr, Option.bind_some]
      exact (if_neg huri).symm
    · rw [hr, Option.some.injEq, Prod.mk.injEq] at hl
      exact absurd hl.1 huri

/-- A grammar with a pragma attached to a node. -/
def attached (i : NodeId) (p : Pragma) (g : Grammar) : Grammar :=
  { g.modify i fun n => { n with toLabel := attachTo n.toLabel [p] } with
    defaultNamespace := p.directive.xmlns?.or g.defaultNamespace }

theorem push_eq_modify {p : Pragma} (h : p.directive.rename? = none) (i : NodeId) (g : Grammar) :
    push i p g = g.modify i fun n => { n with toLabel := attachTo n.toLabel [p] } := by
  have hf : (fun n : Node => { n with pragmas := n.pragmas ++ [p] }) =
      fun n => { n with toLabel := attachTo n.toLabel [p] } := by
    funext n
    simp [attachTo, renames, h]
  rw [push, hf]

theorem push_setRename_eq_modify {p : Pragma} {name : String} (h : p.directive = .rename name) (i : NodeId)
    (g : Grammar) : push i p (g.modify i fun n => { n with kind := setRename name n.kind }) =
      g.modify i fun n => { n with toLabel := attachTo n.toLabel [p] } := by
  have hf : ((fun n : Node => { n with pragmas := n.pragmas ++ [p] }) ∘
      fun n : Node => { n with kind := setRename name n.kind }) =
      fun n => { n with toLabel := attachTo n.toLabel [p] } := by
    funext n
    simp [attachTo, renames, h, Directive.rename?]
  rw [push, Grammar.modify_modify, hf]

/-- A pragma is attached to a node that it suits. Another name is only given to a node that has none. -/
theorem ensures_attached (i : NodeId) (p : Pragma) (g : Grammar) :
    (give i p).Ensures g fun _ g' => g' = (if suits (g.kind i) p.directive then attached i p g else g) ∧
      (suits (g.kind i) p.directive → p.directive.rename?.isSome → renameOf? (g.kind i) = some none) := by
  have hupdate (f : Grammar → Grammar) (hs : suits (g.kind i) p.directive = true) (hr : p.directive.rename? = none)
      (hf : f g = attached i p g) : (Work.update f).Ensures g fun _ g' =>
        g' = (if suits (g.kind i) p.directive then attached i p g else g) ∧
          (suits (g.kind i) p.directive → p.directive.rename?.isSome → renameOf? (g.kind i) = some none) :=
    (Ensures.update f g).mono fun _ g' hg => by
      rw [hg, if_pos hs, hr, hf]
      exact ⟨rfl, fun _ h => by cases h⟩
  have hwarn (text : String) (hs : suits (g.kind i) p.directive = false) : (warn text : Work Grammar Unit).Ensures g
      fun _ g' => g' = (if suits (g.kind i) p.directive then attached i p g else g) ∧
        (suits (g.kind i) p.directive → p.directive.rename?.isSome → renameOf? (g.kind i) = some none) :=
    (Ensures.warn text g).mono fun _ g' hg => by
      rw [hg, hs]
      exact ⟨rfl, nofun⟩
  refine .current ?_
  split
  · rename_i name hd
    split
    · rename_i hk
      exact hwarn _ (by rw [hd, suits, hk]; rfl)
    · exact .throw _ _
    · rename_i hk
      have hs : suits (g.kind i) p.directive = true := by rw [hd, suits, hk]; rfl
      refine (Ensures.update _ g).mono fun _ g' hg => ⟨?_, fun _ _ => hk⟩
      rw [hg, if_pos hs, push_setRename_eq_modify hd, attached, hd]
      rfl
  · rename_i uri hd
    refine hupdate _ (by rw [hd]; rfl) (by rw [hd]; rfl) ?_
    rw [push_eq_modify (by rw [hd]; rfl), attached, hd]
    rfl
  · rename_i text hd
    split
    · rename_i hk
      refine hupdate _ (by rw [hd]; exact hk) (by rw [hd]; rfl) ?_
      rw [push_eq_modify (by rw [hd]; rfl), attached, hd]
      rfl
    · rename_i hk
      exact hwarn _ (by rw [hd]; exact Bool.eq_false_iff.mpr hk)
  · have hr : p.directive.rename? = none := by cases hd : p.directive <;> simp_all [Directive.rename?]
    have hx : p.directive.xmlns? = none := by cases hd : p.directive <;> simp_all [Directive.xmlns?]
    refine hupdate _ (by cases hd : p.directive <;> simp_all [suits]) hr ?_
    rw [push_eq_modify hr, attached, hx]
    rfl

/-- What is attached for pragmas that were written on the nodes of a grammar, in order. -/
def acceptedAll (bs : Assoc) (g₀ : Grammar) (ps : List Raw) : List Pragma :=
  ps.filterMap fun p => (g₀.parent p.id).bind fun i => accepted? bs (g₀.kind i) p.name p.data

/-- What is attached to one node for those among some pragmas that were written on it. -/
def acceptedOn (bs : Assoc) (g₀ : Grammar) (ps : List Raw) (i : NodeId) : List Pragma :=
  acceptedAll bs g₀ (ps.filter fun p => g₀.parent p.id = some i)

/-- What has become of a grammar `g₀` under the bindings `bs` when the pragmas `ps` have been understood. -/
structure Gave (g₀ : Grammar) (D : List NodeId) (bs : Assoc) (ps : List Raw) (g : Grammar) : Prop where
  altered : Altered g₀ D (acceptedOn bs g₀ ps) g
  bindings : g.bindings = bs
  once (i : NodeId) : (renames (acceptedOn bs g₀ ps i)).length ≤ 1
  defaultNamespace : g.defaultNamespace = ((acceptedAll bs g₀ ps).filterMap (·.directive.xmlns?)).getLast?
  sound : ∀ p ∈ ps, IsSound bs p.name p.data

section Giving

variable {g₀ g : Grammar} {D : List NodeId} {bs : Assoc} {p : Raw} {ps : List Raw} {F : List Layout} {i : NodeId}

theorem acceptedAll_concat (ps : List Raw) (hp : g₀.parent p.id = some i) : acceptedAll bs g₀ (ps ++ [p]) =
    acceptedAll bs g₀ ps ++ (accepted? bs (g₀.kind i) p.name p.data).toList := by
  rw [acceptedAll, List.filterMap_append, List.filterMap_cons, hp, Option.bind_some]
  cases accepted? bs (g₀.kind i) p.name p.data <;> rfl

theorem acceptedOn_concat (ps : List Raw) (hp : g₀.parent p.id = some i) (j : NodeId) :
    acceptedOn bs g₀ (ps ++ [p]) j =
      acceptedOn bs g₀ ps j ++ if j = i then (accepted? bs (g₀.kind i) p.name p.data).toList else [] := by
  rw [acceptedOn, List.filter_append]
  split
  · rename_i hj
    rw [List.filter_cons_of_pos (by simp [hp, hj]), List.filter_nil, acceptedAll_concat _ hp, acceptedOn]
  · rename_i hj
    rw [List.filter_cons_of_neg (by simpa [hp] using Ne.symm hj), List.filter_nil, List.append_nil, List.append_nil,
      acceptedOn]

theorem Gave.skip (hl : Lays g₀ F) (h : Gave g₀ D bs ps g) (hD : p.id ∉ D) (hp : g₀.parent p.id = some i)
    (hs : IsSound bs p.name p.data) (ha : accepted? bs (g₀.kind i) p.name p.data = none) :
    Gave g₀ (p.id :: D) bs (ps ++ [p]) (g.detach p.id) := by
  have hon (j : NodeId) : acceptedOn bs g₀ (ps ++ [p]) j = acceptedOn bs g₀ ps j := by
    rw [acceptedOn_concat ps hp, ha, Option.toList_none, ite_self, List.append_nil]
  refine ⟨?_, ?_, fun j => hon j ▸ h.once j, ?_, List.forall_mem_append.mpr ⟨h.sound, by simpa using hs⟩⟩
  · rw [funext hon]
    exact h.altered.detach hl hD hp
  · rw [Grammar.bindings_detach, h.bindings]
  · rw [Grammar.defaultNamespace_detach, h.defaultNamespace, acceptedAll_concat ps hp, ha, Option.toList_none,
      List.append_nil]

theorem Gave.take (hl : Lays g₀ F) (h : Gave g₀ D bs ps g) (hD : p.id ∉ D) (hp : g₀.parent p.id = some i)
    (hs : IsSound bs p.name p.data) {q : Pragma} (ha : accepted? bs (g₀.kind i) p.name p.data = some q)
    (hr : q.directive.rename?.isSome → renameOf? ((g.detach p.id).kind i) = some none) :
    Gave g₀ (p.id :: D) bs (ps ++ [p]) (attached i q (g.detach p.id)) := by
  have hon (j : NodeId) : acceptedOn bs g₀ (ps ++ [p]) j =
      if j = i then acceptedOn bs g₀ ps j ++ [q] else acceptedOn bs g₀ ps j := by
    rw [acceptedOn_concat ps hp, ha]
    split <;> simp
  have halt := h.altered.detach hl hD hp
  refine ⟨?_, ?_, fun j => ?_, ?_, List.forall_mem_append.mpr ⟨h.sound, by simpa using hs⟩⟩
  · rw [funext hon]
    refine (halt.attach (Altered.lt_size_of_parent hl hp).2 q).of_nodes_eq rfl ?_
    rfl
  · rw [← h.bindings, ← Grammar.bindings_detach g p.id]
    rfl
  · rw [hon]
    split
    · rename_i hj
      subst hj
      rw [renames_append, List.length_append]
      cases hn : q.directive.rename? with
      | none => simpa [renames, hn] using h.once j
      | some name =>
        -- the node had no other name, so that no pragma before has given one
        have hnone := hr (by rw [hn]; rfl)
        rw [Grammar.kind, halt.toLabel_eq, renameOf?_attachTo, Option.map_eq_some_iff] at hnone
        obtain ⟨o, -, ho⟩ := hnone
        rw [Option.or_eq_none_iff, List.getLast?_eq_none_iff] at ho
        rw [ho.1]
        simp [renames, hn]
    · exact h.once j
  · rw [acceptedAll_concat ps hp, ha, attached, Grammar.defaultNamespace_detach, h.defaultNamespace, Option.toList_some,
      List.filterMap_append]
    cases hx : q.directive.xmlns? <;> simp [hx]

theorem ensures_gave (hl : Lays g₀ F) (h : Gave g₀ D bs ps g) (hD : p.id ∉ D) (hp : g₀.parent p.id = some i)
    (hd : declared? p.name = none) : (understand p).Ensures g fun _ g' => Gave g₀ (p.id :: D) bs (ps ++ [p]) g' := by
  have halt := h.altered.detach hl hD hp
  have hparent : g.parent p.id = some i := by rw [h.altered.parent_eq, if_neg hD, hp]
  have hacc : accepted? bs (g₀.kind i) p.name p.data =
      ((meant? bs p.name p.data).filter (suits (g₀.kind i))).map fun d => ⟨p.name, p.data, d⟩ := by
    rw [accepted?, hd]
    rfl
  refine .current ((Ensures.update _ g).bind fun _ g₁ hg₁ => ?_)
  subst hg₁
  rw [hparent]
  refine (ensures_meant p.name p.data _).bind fun o g₁ ⟨hg₁, ho, hs⟩ => ?_
  subst hg₁
  rw [Grammar.bindings_detach, h.bindings] at ho hs
  subst ho
  cases hm : meant? bs p.name p.data with
  | none => exact .pure (h.skip hl hD hp hs (by rw [hacc, hm]; rfl))
  | some d =>
    refine (ensures_attached i _ _).mono fun _ g' ⟨hg', hr⟩ => ?_
    have hsuits : suits ((g.detach p.id).kind i) d = suits (g₀.kind i) d := by
      rw [Grammar.kind, halt.toLabel_eq, suits_attachTo]
      rfl
    rw [hsuits] at hg' hr
    rw [hm] at hacc
    subst hg'
    cases hk : suits (g₀.kind i) d with
    | false => exact h.skip hl hD hp hs (by rw [hacc]; simp [hk])
    | true => exact h.take hl hD hp hs (by rw [hacc]; simp [hk]) (hr hk)

theorem ensures_gives (hl : Lays g₀ F) (qs : List Raw) {g : Grammar} {D : List NodeId} {ps : List Raw}
    (h : Gave g₀ D bs ps g) (hD : ∀ p ∈ qs, p.id ∉ D) (hn : (qs.map (·.id)).Nodup)
    (hqs : ∀ p ∈ qs, (g₀.parent p.id).isSome) (hd : ∀ p ∈ qs, declared? p.name = none) :
    (qs.forM understand).Ensures g fun _ g' => Gave g₀ ((qs.map (·.id)).reverse ++ D) bs (ps ++ qs) g' := by
  induction qs generalizing g D ps with
  | nil => exact .pure (by simpa using h)
  | cons p qs ih =>
    rw [List.forall_mem_cons] at hD hqs hd
    rw [List.map_cons, List.nodup_cons] at hn
    obtain ⟨i, hi⟩ := Option.isSome_iff_exists.mp hqs.1
    refine (ensures_gave hl h hD.1 hi hd.1).bind fun _ g' h' => ?_
    have hD' : ∀ q ∈ qs, q.id ∉ p.id :: D := fun q hq hmem => by
      rcases List.mem_cons.mp hmem with he | hmem
      · exact hn.1 (he ▸ List.mem_map_of_mem hq)
      · exact hD.2 q hq hmem
    have := ih h' hD' hn.2 hqs.2 hd.2
    rw [List.append_assoc, List.singleton_append] at this
    rwa [List.map_cons, List.reverse_cons, List.append_assoc, List.singleton_append]

end Giving

/-! ### All pragmas -/

/-- The pragmas as written on a node, in order. -/
def writtenOn (g : Grammar) (i : NodeId) : List Raw :=
  (g.children i).filterMap (raw? g)

section Reading

variable {tokens : List Token} {J : List Layout} {g₀ g : Grammar} {i : NodeId} {p : Raw}

theorem raw?_eq (g : Grammar) (i : NodeId) : raw? g i = (g.kind i).pragma?.map fun q => ⟨i, q.1, q.2⟩ := by
  rw [raw?]
  cases g.kind i <;> rfl

theorem map_id_filterMap_raw? (g : Grammar) (is : List NodeId) :
    (is.filterMap (raw? g)).map (·.id) = is.filter fun i => (g.kind i).isPragma := by
  rw [List.map_filterMap, ← List.filterMap_eq_filter]
  refine List.filterMap_congr fun i _ => ?_
  rw [raw?_eq, Option.guard, ← Construct.isSome_pragma?]
  cases (g.kind i).pragma? <;> rfl

theorem mem_map_id_rawAll_iff (h : IsForest tokens J g₀) :
    i ∈ (rawAll g₀).map (·.id) ↔ i < g₀.nodes.size ∧ (g₀.kind i).isPragma = true := by
  rw [rawAll, map_id_filterMap_raw?, List.mem_filter]
  exact and_congr_left' h.lays.mem_nodesFrom_iff

theorem nodup_map_id_rawAll (h : IsForest tokens J g₀) : ((rawAll g₀).map (·.id)).Nodup := by
  rw [rawAll, map_id_filterMap_raw?]
  exact h.lays.nodup_nodesFrom.filter _

theorem isSome_parent_of_mem_rawAll (h : IsForest tokens J g₀) (hp : p ∈ rawAll g₀) : (g₀.parent p.id).isSome := by
  obtain ⟨hi, hk⟩ := (mem_map_id_rawAll_iff h).mp (List.mem_map_of_mem hp)
  obtain ⟨z, u, hu, he⟩ := h.exists_fill hi
  rw [← he] at hk ⊢
  rw [h.lays.parent_fill (List.mem_singleton.mpr hu)]
  cases z with
  | nil =>
    -- the root is no pragma
    rw [fill_nil] at hu
    rw [Grammar.kind, h.lays.toLabel_fill (z := []) (List.mem_singleton.mpr hu), hu] at hk
    cases hk
  | cons f z => rfl

theorem filter_rawAll_parent (h : IsForest tokens J g₀) (i : NodeId) :
    (rawAll g₀).filter (fun p => g₀.parent p.id = some i) = writtenOn g₀ i := by
  rw [rawAll, writtenOn, ← h.lays.filter_nodesFrom_parent i, List.filter_filterMap, List.filterMap_filter]
  refine List.filterMap_congr fun j _ => ?_
  rw [raw?_eq]
  cases (g₀.kind j).pragma? with
  | none => simp
  | some q => by_cases hj : g₀.parent j = some i <;> simp [hj]

theorem acceptedAll_asking (bs : Assoc) (g₀ : Grammar) (ps : List Raw) :
    acceptedAll bs g₀ (asking ps) = acceptedAll bs g₀ ps := by
  rw [acceptedAll, asking, List.filterMap_filter]
  refine List.filterMap_congr fun p _ => ?_
  split
  · rfl
  · rename_i hd
    have hd : (declared? p.name).isSome := by simpa [Option.isSome_iff_ne_none] using hd
    cases g₀.parent p.id with
    | none => rfl
    | some i => rw [Option.bind_some, accepted?, if_pos hd]

/-- What is attached to a node comes from the pragmas that were written on it. -/
theorem acceptedOn_rawAll (h : IsForest tokens J g₀) (bs : Assoc) (i : NodeId) :
    acceptedOn bs g₀ (asking (rawAll g₀)) i =
      (writtenOn g₀ i).filterMap fun p => accepted? bs (g₀.kind i) p.name p.data := by
  rw [acceptedOn, asking, List.filter_comm, ← asking, acceptedAll_asking, ← filter_rawAll_parent h, acceptedAll]
  refine List.filterMap_congr fun p hp => ?_
  rw [of_decide_eq_true (List.mem_filter.mp hp).2, Option.bind_some]

variable {D : List NodeId} {given : NodeId → List Pragma}

theorem preorder_eq_filter (h : IsForest tokens J g₀) (ha : Altered g₀ D given g)
    (hD : ∀ j, j ∈ D ↔ j < g₀.nodes.size ∧ (g₀.kind j).isPragma = true) (fuel : Nat) :
    ∀ {i}, i ∉ D → g.preorder fuel i = (g₀.preorder fuel i).filter (· ∉ D) := by
  -- a pragma takes nothing with it, because nothing is below it
  have hgone (fuel : Nat) {j : NodeId} (hj : j ∈ D) : (g₀.preorder fuel j).filter (· ∉ D) = [] := by
    cases fuel with
    | zero => rfl
    | succ fuel =>
      rw [Grammar.preorder, h.children_eq_nil ((hD j).mp hj).2, List.flatMap_nil,
        List.filter_cons_of_neg (by simpa using hj), List.filter_nil]
  induction fuel with
  | zero => exact fun _ => rfl
  | succ fuel ih =>
    intro i hi
    rw [Grammar.preorder, Grammar.preorder, List.filter_cons_of_pos (by simpa using hi), ha.children_eq,
      List.filter_flatMap]
    congr 1
    induction g₀.children i with
    | nil => rfl
    | cons c cs ihc =>
      by_cases hc : c ∈ D
      · rw [List.filter_cons_of_neg (by simpa using hc), List.flatMap_cons, hgone fuel hc, List.nil_append, ihc]
      · rw [List.filter_cons_of_pos (by simpa using hc), List.flatMap_cons, List.flatMap_cons, ih hc, ihc]

theorem treeTo_eq_understood (h : IsForest tokens J g₀) {bs : Assoc}
    (ha : Altered g₀ D (fun i => (writtenOn g₀ i).filterMap fun p => accepted? bs (g₀.kind i) p.name p.data) g)
    (hD : ∀ j, j ∈ D ↔ j < g₀.nodes.size ∧ (g₀.kind j).isPragma = true) (fuel : Nat) :
    ∀ {u : Layout} {z : List Frame}, fill z u = ofForest J → u.ids.length ≤ fuel →
      g.treeTo fuel u.id = u.erase.understood bs := by
  induction fuel with
  | zero =>
    rintro ⟨i, l, ts⟩ z _ hlen
    simp at hlen
  | succ fuel ih =>
    rintro ⟨i, l, ts⟩ z hu hlen
    have hmem (v : Layout) (hv : v ∈ ts) : ∃ z', fill z' v = ofForest J := by
      obtain ⟨bs, as, rfl⟩ := List.append_of_mem hv
      exact ⟨⟨i, l, bs, as⟩ :: z, hu⟩
    have hkind (v : Layout) (hv : v ∈ ts) : g₀.kind v.id = v.kind := by
      obtain ⟨z', hz'⟩ := hmem v hv
      rw [Grammar.kind, h.lays.toLabel_fill (List.mem_singleton.mpr hz')]
      rfl
    have hin (v : Layout) (hv : v ∈ ts) : v.id ∈ D ↔ v.kind.isPragma = true := by
      rw [hD, hkind v hv, and_iff_right]
      obtain ⟨z', hz'⟩ := hmem v hv
      rw [← h.lays.mem_ids_iff, idsAll_cons, idsAll_nil, List.append_nil, ← hz']
      exact mem_ids_fill.mpr (Or.inl (id_mem_ids v))
    have hlabel : (g₀.node i).toLabel = l := h.lays.toLabel_fill (List.mem_singleton.mpr hu)
    have hkids : g₀.children i = ts.map Layout.id := h.lays.children_fill (List.mem_singleton.mpr hu)
    have hwritten : (writtenOn g₀ i).filterMap (fun p => accepted? bs (g₀.kind i) p.name p.data) =
        ((ts.map erase).filterMap (·.kind.pragma?)).filterMap fun p => accepted? bs l.kind p.1 p.2 := by
      rw [writtenOn, hkids, Grammar.kind, hlabel, List.filterMap_map, List.filterMap_map, List.filterMap_filterMap,
        List.filterMap_filterMap]
      refine List.filterMap_congr fun v hv => ?_
      rw [Function.comp_apply, Function.comp_apply, raw?_eq, hkind v hv, Tree.kind, label_erase, Layout.kind]
      cases v.label.kind.pragma? <;> rfl
    rw [id_node, Grammar.treeTo, ha.toLabel_eq, hwritten, hlabel, ha.children_eq, hkids, erase_node, Tree.understood,
      Tree.understoodAll_eq, List.filter_map, List.filter_map, List.map_map, List.map_map]
    have hfilter : ts.filter ((fun j => decide (j ∉ D)) ∘ Layout.id) =
        ts.filter ((fun t => !t.kind.isPragma) ∘ erase) := by
      refine List.filter_congr fun v hv => ?_
      rw [Function.comp_apply, Function.comp_apply, Tree.kind, label_erase, Bool.eq_iff_iff]
      simp [hin v hv, Layout.kind]
    rw [hfilter]
    congr 1
    refine List.map_congr_left fun v hv => ?_
    obtain ⟨z', hz'⟩ := hmem v (List.mem_of_mem_filter hv)
    exact ih hz' (Lays.length_ids_lt (List.mem_of_mem_filter hv) hlen)

end Reading

/-- How a grammar `g` whose pragmas have been understood stands to the grammar `g₀` that was read. -/
structure Attaches (g₀ g : Grammar) : Prop where
  /-- A prefix is bound as the declarations of the whole grammar say. -/
  uri (nsPrefix : String) : g.uri? nsPrefix = Assoc.find? nsPrefix (declarations g₀)
  /-- Under these bindings every other pragma has a namespace, and its data make sense. -/
  sound : ∀ p ∈ rawAll g₀, declared? p.name = none → IsSound g.bindings p.name p.data
  /-- The nodes are those that were read, apart from the pragmas. -/
  nodes : g.nodesFrom Grammar.root = (g₀.nodesFrom Grammar.root).filter fun i => !(g₀.kind i).isPragma
  gone : ∀ i ∈ g.nodesFrom Grammar.root, (g.kind i).isPragma = false
  tree : g.tree Grammar.root = (g₀.tree Grammar.root).understood g.bindings
  /-- What is attached to a node comes from the pragmas that were written on it, in order. -/
  pragmas (i : NodeId) : (g.node i).pragmas =
    (writtenOn g₀ i).filterMap fun p => accepted? g.bindings (g₀.kind i) p.name p.data
  /-- A node has another name exactly if one pragma that is attached to it gives one. -/
  renamed (i : NodeId) (name : String) :
    renameOf? (g.kind i) = some (some name) ↔ renames (g.node i).pragmas = [name]
  /-- The rest of the grammar is as it was, apart from the default namespace, which the last pragma gives that gives
  one. -/
  bare : g.bare = { g₀.bare with
    bindings := g.bindings
    defaultNamespace := ((acceptedAll g.bindings g₀ (rawAll g₀)).filterMap (·.directive.xmlns?)).getLast? }

section Ending

variable {tokens : List Token} {J : List Layout} {g₀ g : Grammar} {D : List NodeId} {bs : Assoc}

theorem isSome_renameOf?_of_mem_renames {k : Construct} {ps : List Raw} {name : String}
    (h : name ∈ renames (ps.filterMap fun p => accepted? bs k p.name p.data)) : (renameOf? k).isSome := by
  rw [renames, List.mem_filterMap] at h
  obtain ⟨q, hq, hr⟩ := h
  obtain ⟨p, -, hp⟩ := List.mem_filterMap.mp hq
  rw [accepted?] at hp
  split at hp
  · cases hp
  · rw [Option.map_eq_some_iff] at hp
    obtain ⟨d, hd, rfl⟩ := hp
    have hs := (Option.filter_eq_some_iff.mp hd).2
    cases d with
    | rename => exact hs
    | _ => cases hr

/-- A node that had no other name has the one that is given, if at most one is. -/
theorem renamed_iff {l : Label} (hl : l.IsBare) {ps : List Raw} {name : String}
    (h : (renames (ps.filterMap fun p => accepted? bs l.kind p.name p.data)).length ≤ 1) :
    renameOf? (attachTo l (ps.filterMap fun p => accepted? bs l.kind p.name p.data)).kind = some (some name) ↔
      renames (ps.filterMap fun p => accepted? bs l.kind p.name p.data) = [name] := by
  have hsome (n : String) := @isSome_renameOf?_of_mem_renames bs l.kind ps n
  rw [renameOf?_attachTo]
  generalize renames (ps.filterMap fun p => accepted? bs l.kind p.name p.data) = names at h hsome
  match names with
  | [] =>
    have := hl.rename name
    simpa using this
  | [n] =>
    obtain ⟨o, ho⟩ := Option.isSome_iff_exists.mp (hsome n (List.mem_singleton_self n))
    simp [ho]
  | n :: m :: names => simp at h

theorem Gave.attaches (hg : Gave g₀ D bs (asking (rawAll g₀)) g) (h : IsForest tokens J g₀)
    (hD : ∀ i, i ∈ D ↔ i ∈ (rawAll g₀).map (·.id)) (huri : ∀ n, g.uri? n = Assoc.find? n (declarations g₀)) :
    Attaches g₀ g := by
  obtain ⟨halt, rfl, honce, hns, hsound⟩ := hg
  rw [funext (acceptedOn_rawAll h g.bindings)] at halt
  replace hD (i : NodeId) : i ∈ D ↔ i < g₀.nodes.size ∧ (g₀.kind i).isPragma = true :=
    (hD i).trans (mem_map_id_rawAll_iff h)
  have hsize : g.depthBound = g₀.depthBound := halt.size
  have hroot : Grammar.root ∉ D := fun hr => by
    have := h.lays.toLabel_fill (z := []) (List.mem_singleton_self (ofForest J))
    rw [id_node, label_node] at this
    have hk := ((hD _).mp hr).2
    rw [Grammar.kind, this] at hk
    cases hk
  have hnodes : g.nodesFrom Grammar.root = (g₀.nodesFrom Grammar.root).filter fun i => !(g₀.kind i).isPragma := by
    rw [Grammar.nodesFrom, hsize, preorder_eq_filter h halt hD _ hroot]
    refine List.filter_congr fun i hi => ?_
    have hi : i < g₀.nodes.size := h.lays.mem_nodesFrom_iff.mp hi
    simp [hD, hi]
  have hpragmas (i : NodeId) : (g.node i).pragmas =
      (writtenOn g₀ i).filterMap fun p => accepted? g.bindings (g₀.kind i) p.name p.data := by
    rw [show (g.node i).pragmas = (g.node i).toLabel.pragmas from rfl, halt.toLabel_eq, attachTo, (h.isBare i).pragmas,
      List.nil_append]
  refine ⟨huri, fun p hp hd => hsound p (List.mem_filter.mpr ⟨hp, by rw [hd]; rfl⟩), hnodes, fun i hi => ?_, ?_, hpragmas,
    fun i name => ?_, ?_⟩
  · rw [hnodes, List.mem_filter] at hi
    rw [Grammar.kind, halt.toLabel_eq, isPragma_attachTo]
    simpa [Grammar.kind] using hi.2
  · have hlen := h.lays.length_ids_le (Lays.spots_subset (z := []) (List.mem_singleton_self (ofForest J)))
      (h.lays.nodup_ids_fill (z := []) (List.mem_singleton_self (ofForest J)))
    rw [Grammar.tree, hsize, show g₀.tree Grammar.root = (ofForest J).erase from
      h.lays.tree_eq (z := []) (List.mem_singleton_self (ofForest J))]
    exact treeTo_eq_understood h halt hD _ (z := []) rfl hlen
  · rw [hpragmas, Grammar.kind, halt.toLabel_eq]
    exact renamed_iff (h.isBare i) (acceptedOn_rawAll h g.bindings i ▸ honce i)
  · rw [halt.bare, hns, acceptedAll_asking]

/-- The pragmas have been taken out of their places, and what the others ask for has been attached. -/
theorem ensures_gave_understandAll (h : IsForest tokens J g₀) : understandAll.Ensures g₀ fun _ g =>
    ∃ D bs, Gave g₀ D bs (asking (rawAll g₀)) g ∧ (∀ i, i ∈ D ↔ i ∈ (rawAll g₀).map (·.id)) ∧
      ∀ n, g.uri? n = Assoc.find? n (declarations g₀) := by
  obtain ⟨s, hbare⟩ := h.bare
  have hbindings : g₀.bindings = [] := by
    have := congrArg Grammar.bindings hbare
    exact this
  have hns : g₀.defaultNamespace = none := by
    have := congrArg Grammar.defaultNamespace hbare
    exact this
  have hparent : ∀ p ∈ rawAll g₀, (g₀.parent p.id).isSome := fun p => isSome_parent_of_mem_rawAll h
  have hnodup := nodup_map_id_rawAll h
  refine .current ((ensures_declares h.lays (rawAll g₀) (.refl g₀) (by simp) hnodup hparent).bind fun qs g' hd => ?_)
  obtain ⟨rfl, halt, hns', huri⟩ := hd
  have hstart : Gave g₀ (((declaring (rawAll g₀)).map (·.id)).reverse ++ []) g'.bindings [] g' :=
    ⟨halt, rfl, fun _ => Nat.zero_le _, hns'.trans hns, by simp⟩
  have hasking : ∀ p ∈ asking (rawAll g₀), declared? p.name = none := fun p hp => by
    simpa using (List.mem_filter.mp hp).2
  have hfresh : ∀ p ∈ asking (rawAll g₀), p.id ∉ ((declaring (rawAll g₀)).map (·.id)).reverse ++ [] := by
    intro p hp hmem
    rw [List.append_nil, List.mem_reverse] at hmem
    obtain ⟨q, hq, hqp⟩ := List.mem_map.mp hmem
    have := List.inj_on_of_nodup_map hnodup (List.mem_of_mem_filter hq) (List.mem_of_mem_filter hp) hqp
    subst this
    have hsome := (List.mem_filter.mp hq).2
    rw [hasking q hp] at hsome
    cases hsome
  refine (ensures_gives h.lays (asking (rawAll g₀)) hstart hfresh (hnodup.sublist (List.filter_sublist.map _))
    (fun p hp => hparent p (List.mem_of_mem_filter hp)) hasking).mono fun _ g hg => ?_
  have huri' (n : String) : g.uri? n = Assoc.find? n (declarations g₀) := by
    rw [Grammar.uri?, hg.bindings, ← Grammar.uri?, huri, Grammar.uri?, hbindings, Assoc.find?_nil, Option.none_or]
    rfl
  refine ⟨_, _, hg, fun i => ?_, huri'⟩
  rw [List.append_nil, List.mem_append, List.mem_reverse, List.mem_reverse, ← List.mem_append, ← List.map_append]
  have hperm := List.filter_append_perm (fun p : Raw => (declared? p.name).isNone) (rawAll g₀)
  simp only [Option.not_isNone] at hperm
  exact (hperm.map _).mem_iff

end Ending

theorem exists_gave_of_understood {source : String} {g : Grammar} (hu : Grammar.understood source = .ok g) :
    ∃ tokens J g₀ D bs, Token.scan source = .ok tokens ∧ Grammar.read source = .ok g₀ ∧
      IsForest (tokens.map (·.token)) J g₀ ∧ Gave g₀ D bs (asking (rawAll g₀)) g ∧
      (∀ i, i ∈ D ↔ i ∈ (rawAll g₀).map (·.id)) ∧ ∀ n, g.uri? n = Assoc.find? n (declarations g₀) := by
  unfold Grammar.understood at hu
  cases hr : Grammar.read source with
  | error e =>
    rw [hr] at hu
    cases hu
  | ok g₀ =>
    obtain ⟨tokens, J, hs, hJ⟩ := exists_isForest_of_read hr
    rw [hr] at hu
    cases hv : (understandAll.perform g₀).1 with
    | error e =>
      simp only [bind, Except.bind, hv] at hu
      cases hu
    | ok a =>
      simp only [bind, Except.bind, hv] at hu
      cases hu
      obtain ⟨D, bs, hg⟩ := (ensures_gave_understandAll hJ).perform hv
      exact ⟨tokens, J, g₀, D, bs, hs, rfl, hJ, hg⟩

theorem exists_attaches_of_understood {source : String} {g : Grammar} (hu : Grammar.understood source = .ok g) :
    ∃ tokens J g₀, Token.scan source = .ok tokens ∧ Grammar.read source = .ok g₀ ∧
      IsForest (tokens.map (·.token)) J g₀ ∧ Attaches g₀ g := by
  obtain ⟨tokens, J, g₀, D, bs, hs, hr, hJ, hg, hD, huri⟩ := exists_gave_of_understood hu
  exact ⟨tokens, J, g₀, hs, hr, hJ, hg.attaches hJ hD huri⟩

/-- Every pragma of a text whose pragmas are understood is attached to the construct that it was written on, or passed
over, and nothing else is changed. -/
theorem attaches_of_understood {source : String} {g₀ g : Grammar} (hr : Grammar.read source = .ok g₀)
    (hu : Grammar.understood source = .ok g) : Attaches g₀ g := by
  obtain ⟨-, -, g₁, -, hr', -, hg⟩ := exists_attaches_of_understood hu
  obtain rfl : g₀ = g₁ := Except.ok.inj (hr.symm.trans hr')
  exact hg

/-- A text that gives other names to a reference and, in vain, to a literal, with a prefix that is declared later. -/
def lateDeclaration : String :=
  "s: \x7b[n:rename \"t\"]\x7d a, \x7b[n:rename \"u\"]\x7d 'x'. \x7b[ixmlns:n \"https://nineml.org/ns/pragma/\"]\x7d a: ."

theorem attaches_of_understood_late : ∃ g₀ g, Grammar.read lateDeclaration = .ok g₀ ∧
    Grammar.understood lateDeclaration = .ok g ∧ Attaches g₀ g ∧
    (g.nodesFrom Grammar.root).filterMap (fun i => (renameOf? (g.kind i)).join) = ["t"] := by
  obtain ⟨g₀, hr⟩ := exists_eq_ok (x := Grammar.read lateDeclaration) (by decide +kernel)
  obtain ⟨g, hu, hg⟩ := exists_eq_ok_and (x := Grammar.understood lateDeclaration)
    (p := fun g => (g.nodesFrom Grammar.root).filterMap (fun i => (renameOf? (g.kind i)).join) = ["t"])
    (by decide +kernel)
  exact ⟨g₀, g, hr, hu, attaches_of_understood hr hu, of_decide_eq_true hg⟩

end Ixml.Pragma
