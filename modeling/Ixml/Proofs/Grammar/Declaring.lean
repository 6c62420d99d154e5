import Ixml.Proofs.Grammar.Altered

/-!
# Declarations of prefixes

The declarations of a grammar are carried out before any other pragma is looked up. They leave their places, and each
prefix is bound to the namespace that its first declaration gives it, in the order in which the declarations stand in
the store (`Pragma.ensures_declares`).
-/

namespace Ixml.Pragma

open Layout Work

/-- The prefix that a pragma binds, and the namespace. The reserved prefixes are not bound, and none is bound to an
empty namespace. -/
def declaration? (name data : String) : Option (String × String) :=
  (declared? name).join.bind fun nsPrefix =>
    if nsPrefix = "xml" ∨ nsPrefix = "xmlns" ∨ withoutQuotes data = "" then none
    else some (nsPrefix, withoutQuotes data)

/-- All that the declarations in a grammar bind, in the order in which they stand there. -/
def declarations (g : Grammar) : Assoc :=
  (rawAll g).filterMap fun p => declaration? p.name p.data

/-- The bindings of `g'` are those of `g` and, for prefixes that are not bound there, those of `ds`; nothing else has
changed. -/
structure Rebinds (ds : Assoc) (g g' : Grammar) : Prop where
  nodes : g'.nodes = g.nodes
  bare : g'.bare = { g.bare with bindings := g'.bindings }
  uri (nsPrefix : String) : g'.uri? nsPrefix = (g.uri? nsPrefix).or (Assoc.find? nsPrefix ds)

namespace Rebinds

variable {g g' : Grammar} {ds : Assoc} {nsPrefix uri : String}

theorem defaultNamespace_eq (h : Rebinds ds g g') : g'.defaultNamespace = g.defaultNamespace := by
  have := congrArg Grammar.defaultNamespace h.bare
  exact this

theorem of_bound (h : ∀ nsPrefix, (g.uri? nsPrefix).isSome ∨ Assoc.find? nsPrefix ds = none) : Rebinds ds g g := by
  refine ⟨rfl, rfl, fun nsPrefix => ?_⟩
  rcases h nsPrefix with h | h
  · obtain ⟨uri, huri⟩ := Option.isSome_iff_exists.mp h
    rw [huri, Option.some_or]
  · rw [h, Option.or_none]

theorem bind (h : g.uri? nsPrefix = none) : Rebinds [(nsPrefix, uri)] g (g.bind nsPrefix uri) := by
  refine ⟨rfl, rfl, fun other => ?_⟩
  rw [Grammar.bind, Grammar.uri?]
  by_cases ho : other = nsPrefix
  · subst ho
    rw [Assoc.find?_insert_self, h]
    simp [Assoc.find?]
  · rw [Assoc.find?_insert_of_ne ho]
    simp [Assoc.find?, Ne.symm ho, Grammar.uri?]

end Rebinds

theorem ensures_rebinds {name nsPrefix : String} (hd : declared? name = some (some nsPrefix)) (data : String)
    (g : Grammar) :
    (bindPrefix nsPrefix data).Ensures g fun _ g' => Rebinds (declaration? name data).toList g g' := by
  have hwarn (text : String) (h : Rebinds (declaration? name data).toList g g) :
      (warn text : Work Grammar Unit).Ensures g fun _ g' => Rebinds (declaration? name data).toList g g' :=
    (Ensures.warn text g).mono fun _ g' hg => hg ▸ h
  have hdecl : declaration? name data = if nsPrefix = "xml" ∨ nsPrefix = "xmlns" ∨ withoutQuotes data = "" then none
      else some (nsPrefix, withoutQuotes data) := by rw [declaration?, hd]; rfl
  refine .current ?_
  dsimp only
  split
  · rename_i hreserved
    have hreserved : nsPrefix = "xml" ∨ nsPrefix = "xmlns" := by simpa using hreserved
    rw [if_pos (hreserved.imp_right .inl)] at hdecl
    exact hwarn _ (.of_bound fun _ => .inr (by rw [hdecl]; rfl))
  · rename_i hreserved
    split
    · rename_i hempty
      rw [if_pos (.inr (.inr (String.isEmpty_iff.mp hempty)))] at hdecl
      exact hwarn _ (.of_bound fun _ => .inr (by rw [hdecl]; rfl))
    · rename_i hempty
      rw [if_neg (by simpa [String.isEmpty_iff, and_assoc] using And.intro hreserved hempty)] at hdecl
      rw [hdecl, Option.toList_some] at hwarn ⊢
      split
      · rename_i other hbound
        refine hwarn _ (.of_bound fun p => ?_)
        by_cases hp : p = nsPrefix
        · exact .inl (by rw [hp, hbound]; rfl)
        · exact .inr (by simp [Assoc.find?, Ne.symm hp])
      · rename_i hnone
        refine (Ensures.detail _ g).bind fun _ g' hg => (Ensures.update _ g').mono fun _ g'' hg' => ?_
        subst hg hg'
        exact .bind hnone

theorem Altered.rebinds {g₀ g g' : Grammar} {D : List NodeId} {given : NodeId → List Pragma} {ds : Assoc}
    (h : Altered g₀ D given g) (hr : Rebinds ds g g') : Altered g₀ D given g' := by
  refine h.of_nodes_eq hr.nodes ?_
  rw [hr.bare, hr.defaultNamespace_eq]
  rfl

theorem find?_append (n : String) (ds es : Assoc) :
    Assoc.find? n (ds ++ es) = (Assoc.find? n ds).or (Assoc.find? n es) := by
  induction ds with
  | nil => rfl
  | cons d ds ih =>
    obtain ⟨k, v⟩ := d
    rw [List.cons_append, Assoc.find?, Assoc.find?]
    split
    · rfl
    · exact ih

/-- The pragmas among some that are declarations. -/
def declaring (ps : List Raw) : List Raw :=
  ps.filter fun p => (declared? p.name).isSome

/-- The pragmas among some that are no declarations. -/
def asking (ps : List Raw) : List Raw :=
  ps.filter fun p => (declared? p.name).isNone

/-- What has become of a grammar `g` on the way when the declarations among the pragmas `ps` have been carried out and
the pragmas `qs` are left: the declarations are out of their places, and they have bound the prefixes that were not
bound before. -/
structure Declares (g₀ : Grammar) (D : List NodeId) (given : NodeId → List Pragma) (ps : List Raw) (g : Grammar)
    (qs : List Raw) (g' : Grammar) : Prop where
  rest : qs = asking ps
  altered : Altered g₀ (((declaring ps).map (·.id)).reverse ++ D) given g'
  defaultNamespace : g'.defaultNamespace = g.defaultNamespace
  uri (n : String) : g'.uri? n = (g.uri? n).or (Assoc.find? n (ps.filterMap fun p => declaration? p.name p.data))

namespace Declares

variable {g₀ g g₁ g' : Grammar} {D : List NodeId} {given : NodeId → List Pragma} {p : Raw} {ps qs : List Raw}

theorem cons_declaring (hd : (declared? p.name).isSome) (hr : Rebinds (declaration? p.name p.data).toList g g₁)
    (h : Declares g₀ (p.id :: D) given ps (g₁.detach p.id) qs g') : Declares g₀ D given (p :: ps) g qs g' := by
  refine ⟨?_, ?_, ?_, fun n => ?_⟩
  · rw [h.rest, asking, asking, List.filter_cons_of_neg]
    simpa using Option.isSome_iff_ne_none.mp hd
  · rw [declaring, List.filter_cons_of_pos (by exact hd), List.map_cons, List.reverse_cons, List.append_assoc]
    exact h.altered
  · rw [h.defaultNamespace, Grammar.defaultNamespace_detach, hr.defaultNamespace_eq]
  · rw [h.uri, Grammar.uri?, Grammar.bindings_detach, ← Grammar.uri?, hr.uri, List.filterMap_cons]
    cases declaration? p.name p.data with
    | none => simp
    | some d => rw [Option.toList_some, Option.or_assoc, ← find?_append]; rfl

theorem cons_asking (hd : declared? p.name = none) (h : Declares g₀ D given ps g qs g') :
    Declares g₀ D given (p :: ps) g (p :: qs) g' := by
  refine ⟨?_, ?_, h.defaultNamespace, fun n => ?_⟩
  · rw [h.rest, asking, asking, List.filter_cons_of_pos (by rw [hd]; rfl)]
  · rw [declaring, List.filter_cons_of_neg (by rw [hd]; exact Bool.false_ne_true)]
    exact h.altered
  · rw [h.uri, List.filterMap_cons_none (by rw [declaration?, hd]; rfl)]

end Declares

/-- The declarations among pragmas with different addresses leave their places and bind their prefixes. -/
theorem ensures_declares {g₀ : Grammar} {F : List Layout} (hl : Lays g₀ F) {given : NodeId → List Pragma}
    (ps : List Raw) {g : Grammar} {D : List NodeId} (h : Altered g₀ D given g) (hD : ∀ p ∈ ps, p.id ∉ D)
    (hn : (ps.map (·.id)).Nodup) (hps : ∀ p ∈ ps, (g₀.parent p.id).isSome) :
    (declareAll ps).Ensures g (Declares g₀ D given ps g) := by
  induction ps generalizing g D with
  | nil => exact .pure ⟨rfl, h, rfl, fun n => by simp⟩
  | cons p ps ih =>
    rw [List.forall_mem_cons] at hD hps
    rw [List.map_cons, List.nodup_cons] at hn
    obtain ⟨owner, howner⟩ := Option.isSome_iff_exists.mp hps.1
    have hD' : ∀ q ∈ ps, q.id ∉ p.id :: D := fun q hq hmem => by
      rcases List.mem_cons.mp hmem with he | hmem
      · exact hn.1 (he ▸ List.mem_map_of_mem hq)
      · exact hD.2 q hq hmem
    have hgo {g₁ : Grammar} (hr : Rebinds (declaration? p.name p.data).toList g g₁) (hd : (declared? p.name).isSome) :
        (Work.update (·.detach p.id) >>= fun _ => declareAll ps).Ensures g₁ (Declares g₀ D given (p :: ps) g) := by
      refine (Ensures.update _ g₁).bind fun _ g₂ hg₂ => ?_
      subst hg₂
      refine (ih ((h.rebinds hr).detach hl hD.1 howner) hD' hn.2 hps.2).mono fun qs g' h' => ?_
      exact h'.cons_declaring hd hr
    rw [declareAll]
    split
    · rename_i nsPrefix hd
      exact (ensures_rebinds hd p.data g).bind fun _ g₁ hr => hgo hr (by rw [hd]; rfl)
    · rename_i hd
      refine (Ensures.warn _ g).bind fun _ g₁ hg₁ => hgo (hg₁ ▸ .of_bound fun n => .inr ?_) (by rw [hd]; rfl)
      rw [declaration?, hd]
      rfl
    · rename_i hd
      exact (ih h hD.2 hn.2 hps.2).bind fun qs g' h' => .pure (h'.cons_asking hd)

end Ixml.Pragma
