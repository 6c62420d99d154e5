import Ixml.Proofs.Grammar.Attaching

/-!
# The order of declarations

The pragmas in front of a group are put below the group, after all that is inside it. A declaration in front of a group
therefore counts where the group ends, and every other one where it stands (`Token.counted`). The first declaration of a
prefix that counts binds it (`Pragma.bindsFirst_of_understood`); that is the first in the text, if none stands in front
of a group.
-/

namespace Ixml

open Layout

namespace Token

/-- The name and the data of a pragma. -/
def pragma? : Token → Option (String × String)
  | pragma name data => some (name, data)
  | _ => none

/-- The pragmas among tokens, in the order in which they count: those in front of a group count where it ends.
`pending` are the pragmas right in front of the tokens, and `waiting` are those in front of the groups that the tokens
are in, from inside out. -/
def counted (pending : List (String × String)) (waiting : List (List (String × String))) :
    List Token → List (String × String)
  | [] => pending ++ waiting.flatten
  | pragma name data :: ts => counted (pending ++ [(name, data)]) waiting ts
  | leftParen :: ts => counted [] (pending :: waiting) ts
  | rightParen :: ts => pending ++ (waiting.headD [] ++ counted [] waiting.tail ts)
  | _ :: ts => pending ++ counted [] waiting ts

/-- The pragmas among tokens that stand right in front of a group. `pending` are those right in front of the tokens. -/
def aheadOfGroups (pending : List (String × String)) : List Token → List (String × String)
  | [] => []
  | pragma name data :: ts => aheadOfGroups (pending ++ [(name, data)]) ts
  | leftParen :: ts => pending ++ aheadOfGroups [] ts
  | _ :: ts => aheadOfGroups [] ts

/-- A token that neither is a pragma nor opens or closes a group. -/
def isOrdinary : Token → Bool
  | pragma .. | leftParen | rightParen => false
  | _ => true

variable {u : Token} {us : List Token} {ps qs : List (String × String)} {w : List (List (String × String))}

theorem counted_cons (hu : u.isOrdinary = true) : counted ps w (u :: us) = ps ++ counted [] w us := by
  cases u <;> first | rfl | cases hu

theorem counted_pragmaTokens : counted qs w (Phrase.pragmaTokens ps ++ us) = counted (qs ++ ps) w us := by
  induction ps generalizing qs with
  | nil => simp [Phrase.pragmaTokens]
  | cons p ps ih =>
    have hstep : counted (qs ++ [p]) w (Phrase.pragmaTokens ps ++ us) = counted (qs ++ [p] ++ ps) w us := ih
    rwa [List.append_assoc, List.singleton_append] at hstep

theorem counted_append_ordinary {vs : List Token} (h : ∀ u ∈ us, u.isOrdinary = true) (hne : us ≠ []) :
    counted ps w (us ++ vs) = ps ++ counted [] w vs := by
  induction us generalizing ps with
  | nil => exact absurd rfl hne
  | cons u us ih =>
    rw [List.forall_mem_cons] at h
    rw [List.cons_append, counted_cons h.1]
    cases us with
    | nil => rfl
    | cons u' us => rw [ih h.2 (by simp), List.nil_append]

/-- Where no pragma in front of a group matters, all that matter count where they stand. -/
theorem filterMap_counted {α : Type} {f : String × String → Option α} (hw : ∀ ps ∈ w, ps.filterMap f = [])
    (h : ∀ p ∈ aheadOfGroups ps us, f p = none) :
    (counted ps w us).filterMap f = (ps ++ us.filterMap pragma?).filterMap f := by
  induction us generalizing ps w with
  | nil =>
    have : w.flatten.filterMap f = [] := by
      rw [List.filterMap_eq_nil_iff]
      intro p hp
      obtain ⟨qs, hqs, hp⟩ := List.mem_flatten.mp hp
      exact List.filterMap_eq_nil_iff.mp (hw qs hqs) p hp
    simp [counted, List.filterMap_append, this]
  | cons u us ih =>
    by_cases hu : u.isOrdinary = true
    · have hahead : aheadOfGroups ps (u :: us) = aheadOfGroups [] us := by cases u <;> first | rfl | cases hu
      have hnone : pragma? u = none := by cases u <;> first | rfl | cases hu
      rw [hahead] at h
      rw [counted_cons hu, List.filterMap_cons_none hnone, List.filterMap_append, ih hw h, List.nil_append,
        List.filterMap_append]
    · cases u with
      | pragma name data =>
        rw [counted, ih hw h, List.append_assoc]
        rfl
      | leftParen =>
        obtain ⟨hps, hus⟩ := List.forall_mem_append.mp h
        have hnil : ps.filterMap f = [] := List.filterMap_eq_nil_iff.mpr hps
        rw [counted, ih (List.forall_mem_cons.mpr ⟨hnil, hw⟩) hus, List.filterMap_append, List.filterMap_append, hnil]
        rfl
      | rightParen =>
        have hhead : (w.headD []).filterMap f = [] := by
          cases w with
          | nil => rfl
          | cons ps w => exact hw ps (List.mem_cons_self ..)
        have htail := ih (w := w.tail) (fun ps hps => hw ps (List.mem_of_mem_tail hps)) h
        rw [counted, List.filterMap_append, List.filterMap_append, hhead, htail, List.nil_append, List.nil_append,
          List.filterMap_cons_none rfl, List.filterMap_append]
      | _ => exact absurd rfl hu

/-- Every pragma counts somewhere. -/
theorem counted_perm (ps : List (String × String)) (w : List (List (String × String))) (us : List Token) :
    (counted ps w us).Perm (ps ++ w.flatten ++ us.filterMap pragma?) := by
  induction us generalizing ps w with
  | nil => simp [counted]
  | cons u us ih =>
    by_cases hu : u.isOrdinary = true
    · have hnone : pragma? u = none := by cases u <;> first | rfl | cases hu
      rw [counted_cons hu, List.filterMap_cons_none hnone, List.append_assoc]
      exact (ih [] w).append_left ps
    · cases u with
      | pragma name data =>
        refine (ih _ w).trans ?_
        rw [List.append_assoc, List.append_assoc, List.append_assoc]
        exact (List.perm_append_comm_assoc ..).append_left ps
      | leftParen =>
        refine (ih [] (ps :: w)).trans ?_
        rw [List.nil_append, List.flatten_cons]
        exact .refl _
      | rightParen =>
        have hw : w.headD [] ++ w.tail.flatten = w.flatten := by cases w <;> rfl
        rw [counted, List.append_assoc, ← hw, List.append_assoc, List.filterMap_cons_none rfl]
        exact ((ih [] w.tail).append_left _).append_left ps
      | _ => exact absurd rfl hu

end Token

/-! ### Trees -/

namespace Tree

mutual

/-- The names and data of the pragmas in a tree, in order. -/
def rawPragmas : Tree → List (String × String)
  | node l ts => l.kind.pragma?.toList ++ rawPragmasAll ts

def rawPragmasAll : List Tree → List (String × String)
  | [] => []
  | t :: ts => rawPragmas t ++ rawPragmasAll ts

end

theorem rawPragmasAll_append (ts us : List Tree) : rawPragmasAll (ts ++ us) = rawPragmasAll ts ++ rawPragmasAll us := by
  induction ts with
  | nil => rfl
  | cons t ts ih => rw [List.cons_append, rawPragmasAll, rawPragmasAll, ih, List.append_assoc]

theorem rawPragmas_ofKind {k : Construct} (hk : k.pragma? = none) (ts : List Tree) :
    (ofKind k ts).rawPragmas = rawPragmasAll ts := by
  rw [ofKind, rawPragmas, hk]
  rfl

theorem rawPragmas_append (t : Tree) (us : List Tree) :
    (t.append us).rawPragmas = t.rawPragmas ++ rawPragmasAll us := by
  obtain ⟨l, ts⟩ := t
  rw [append, rawPragmas, rawPragmas, rawPragmasAll_append, List.append_assoc]

theorem rawPragmasAll_singleton (t : Tree) : rawPragmasAll [t] = t.rawPragmas := by
  rw [rawPragmasAll, rawPragmasAll, List.append_nil]

theorem rawPragmasAll_pragmaTrees (ps : List (String × String)) : rawPragmasAll (Phrase.pragmaTrees ps) = ps := by
  induction ps with
  | nil => rfl
  | cons p ps ih =>
    rw [Phrase.pragmaTrees, List.map_cons, rawPragmasAll, ← Phrase.pragmaTrees, ih]
    rfl

end Tree

namespace Phrase

open Token Ixml.Tree

variable {J : Joint} {e : Bool} {us : List Token} {t : Tree} {ts : List Tree}

theorem IsValue.isOrdinary {u : Token} {a : Literal} (h : IsValue u a) : u.isOrdinary = true := by
  cases h <;> rfl

theorem IsMember.isOrdinary {m : Tree} (h : IsMember us m) : (∀ u ∈ us, u.isOrdinary = true) ∧ m.rawPragmas = [] := by
  cases h with
  | category => exact ⟨by simp [isOrdinary], rfl⟩
  | value h => exact ⟨by simpa using h.isOrdinary, rfl⟩
  | range ha hb =>
    simp only [List.forall_mem_cons]
    exact ⟨⟨ha.isOrdinary, rfl, hb.isOrdinary, by simp⟩, rfl⟩

theorem IsMembers.isOrdinary {ms : List Tree} (h : IsMembers us ms) :
    (∀ u ∈ us, u.isOrdinary = true) ∧ rawPragmasAll ms = [] := by
  induction h with
  | nil => exact ⟨by simp, rfl⟩
  | cons hm _ ih =>
    obtain ⟨hus, hm⟩ := hm.isOrdinary
    exact ⟨List.forall_mem_append.mpr ⟨hus, ih.1⟩, by rw [rawPragmasAll, hm, ih.2]; rfl⟩
  | ended hm hs _ ih =>
    obtain ⟨hus, hm⟩ := hm.isOrdinary
    refine ⟨List.forall_mem_append.mpr ⟨hus, List.forall_mem_cons.mpr ⟨?_, ih.1⟩⟩, by rw [rawPragmasAll, hm, ih.2]; rfl⟩
    rcases hs with rfl | rfl | rfl <;> rfl

theorem isOrdinary_markTokens (m : Option Mark) : ∀ u ∈ markTokens m, u.isOrdinary = true := by
  rcases m with _ | _ | _ | _ <;> simp [markTokens, Mark.token, isOrdinary]

theorem isOrdinary_terminalMarkTokens (m : Option TerminalMark) : ∀ u ∈ terminalMarkTokens m, u.isOrdinary = true := by
  rcases m with _ | _ | _ <;> simp [terminalMarkTokens, TerminalMark.token, isOrdinary]

theorem IsSign.ordinary {s : Token} {k : Construct} (h : IsSign s k) : s.isOrdinary = true ∧ k.pragma? = none := by
  cases h <;> exact ⟨rfl, rfl⟩

theorem IsDoubleSign.ordinary {s : Token} {k : Construct} (h : IsDoubleSign s k) :
    s.isOrdinary = true ∧ k.pragma? = none := by
  cases h <;> exact ⟨rfl, rfl⟩

theorem isOrdinary_of_bar {s : Token} (h : s = .pipe ∨ s = .semicolon) : s.isOrdinary = true := by
  rcases h with rfl | rfl <;> rfl

theorem counted_ordinary {vs : List Token} {ps : List (String × String)} {w : List (List (String × String))}
    (hus : ∀ u ∈ us, u.isOrdinary = true) (hne : us ≠ []) (ht : t.rawPragmas = []) :
    counted ps w (us ++ vs) = (t.append (pragmaTrees ps)).rawPragmas ++ counted [] w vs := by
  rw [counted_append_ordinary hus hne, rawPragmas_append, ht, rawPragmasAll_pragmaTrees]
  rfl

mutual

theorem IsAlts.counted_append : ∀ {us t}, IsAlts J us t → ∀ w vs,
    counted [] w (us ++ vs) = t.rawPragmas ++ counted [] w vs
  | _, _, .mk ht hts, w, vs => by
    rw [List.append_assoc, ht.counted_append, hts.counted_append, rawPragmas_ofKind rfl, rawPragmasAll,
      List.append_assoc]

theorem IsFurtherAlts.counted_append : ∀ {us ts}, IsFurtherAlts J us ts → ∀ w vs,
    counted [] w (us ++ vs) = rawPragmasAll ts ++ counted [] w vs
  | _, _, .nil, w, vs => rfl
  | _, _, .cons hs ht hts, w, vs => by
    rw [List.append_assoc, List.cons_append, counted_cons (isOrdinary_of_bar hs), List.nil_append, ht.counted_append,
      hts.counted_append, rawPragmasAll, List.append_assoc]

theorem IsAlt.counted_append : ∀ {us t}, IsAlt J us t → ∀ w vs,
    counted [] w (us ++ vs) = t.rawPragmas ++ counted [] w vs
  | _, _, .commas ht hts, w, vs => by
    rw [List.append_assoc, ht.counted_append, hts.counted_append, rawPragmas_ofKind rfl, rawPragmasAll,
      List.append_assoc]
  | _, _, .adjacent hts, w, vs => by rw [hts.counted_append, rawPragmas_ofKind rfl]

theorem IsCommaFactors.counted_append : ∀ {us ts}, IsCommaFactors J us ts → ∀ w vs,
    counted [] w (us ++ vs) = rawPragmasAll ts ++ counted [] w vs
  | _, _, .nil, w, vs => rfl
  | _, _, .cons ht hts, w, vs => by
    rw [List.append_assoc, List.cons_append, counted_cons rfl, List.nil_append, ht.counted_append, hts.counted_append,
      rawPragmasAll, List.append_assoc]

theorem IsFactors.counted_append : ∀ {us ts}, IsFactors J us ts → ∀ w vs,
    counted [] w (us ++ vs) = rawPragmasAll ts ++ counted [] w vs
  | _, _, .nil, w, vs => rfl
  | _, _, .cons ht _ hts, w, vs => by
    rw [List.append_assoc, ht.counted_append, hts.counted_append, rawPragmasAll, List.append_assoc]

theorem IsFactor.counted_append : ∀ {e us t}, IsFactor J e us t → ∀ w vs,
    counted [] w (us ++ vs) = t.rawPragmas ++ counted [] w vs
  | _, _, _, .bare ps ht, w, vs => by
    rw [List.append_assoc, counted_pragmaTokens, List.nil_append, ht.counted_append]
  | _, _, _, .signed ps ht hs, w, vs => by
    rw [List.append_assoc, List.append_assoc, counted_pragmaTokens, List.nil_append, ht.counted_append,
      List.singleton_append, counted_cons hs.ordinary.1, List.nil_append, rawPragmas_ofKind hs.ordinary.2,
      rawPragmasAll_singleton]
  | _, _, _, .separated ps ht hs hu, w, vs => by
    rw [List.append_assoc, List.append_assoc, counted_pragmaTokens, List.nil_append, ht.counted_append,
      List.cons_append, counted_cons hs.ordinary.1, List.nil_append, hu.counted_append,
      rawPragmas_ofKind hs.ordinary.2, rawPragmasAll, rawPragmasAll_singleton, rawPragmas_ofKind rfl,
      rawPragmasAll_singleton, List.append_assoc]

/-- The pragmas in front of a term count after what is inside it. -/
theorem IsTerm.counted_append : ∀ {us t}, IsTerm J us t → ∀ {ps} w vs,
    counted ps w (us ++ vs) = (t.append (pragmaTrees ps)).rawPragmas ++ counted [] w vs
  | _, _, .group ht, ps, w, vs => by
    rw [List.append_assoc, List.cons_append, counted, ht.counted_append, List.singleton_append, counted,
      List.nil_append, List.headD_cons, List.tail_cons, rawPragmas_append, rawPragmasAll_pragmaTrees, List.append_assoc]
  | _, _, .insertion h, ps, w, vs => by
    refine counted_ordinary ?_ (by simp) rfl
    simp only [List.forall_mem_cons]
    exact ⟨rfl, h.isOrdinary, by simp⟩
  | _, _, .nonterminal m name, ps, w, vs => by
    refine counted_ordinary (List.forall_mem_append.mpr ⟨isOrdinary_markTokens m, ?_⟩) (by simp) rfl
    simp [isOrdinary]
  | _, _, .literal m h, ps, w, vs => by
    refine counted_ordinary (List.forall_mem_append.mpr ⟨isOrdinary_terminalMarkTokens m, ?_⟩) (by simp) rfl
    simpa using h.isOrdinary
  | _, _, .inclusion m h, ps, w, vs => by
    refine counted_ordinary ?_ (by simp) ((rawPragmas_ofKind rfl _).trans h.isOrdinary.2)
    simp only [List.forall_mem_append, List.forall_mem_cons]
    exact ⟨⟨isOrdinary_terminalMarkTokens m, rfl, h.isOrdinary.1⟩, rfl, by simp⟩
  | _, _, .exclusion m h, ps, w, vs => by
    refine counted_ordinary ?_ (by simp) ((rawPragmas_ofKind rfl _).trans h.isOrdinary.2)
    simp only [List.forall_mem_append, List.forall_mem_cons]
    exact ⟨⟨isOrdinary_terminalMarkTokens m, rfl, rfl, h.isOrdinary.1⟩, rfl, by simp⟩

end

/-! ### Rules -/

/-- What the declarations among pragmas bind, in order. -/
def bound (ps : List (String × String)) : Assoc :=
  ps.filterMap fun p => Pragma.declaration? p.1 p.2

theorem bound_append (ps qs : List (String × String)) : bound (ps ++ qs) = bound ps ++ bound qs :=
  List.filterMap_append

theorem declaration?_eq_none {name data : String} (h : Reader.isDeclaration (.ofKind (.pragma name data)) = false) :
    Pragma.declaration? name data = none := by
  have h : "ixmlns:".toList.isPrefixOf name.toList = false := by
    rw [Bool.eq_false_iff, ne_eq, List.isPrefixOf_iff_prefix, ← String.startsWith_string_iff]
    exact Bool.eq_false_iff.mp h
  rw [Pragma.declaration?, Pragma.declared?, h, if_neg Bool.false_ne_true]
  split <;> rfl

theorem rawPragmasAll_filter (q : Tree → Bool) (ps : List (String × String)) :
    rawPragmasAll ((pragmaTrees ps).filter q) = ps.filter fun p => q (.ofKind (.pragma p.1 p.2)) := by
  rw [pragmaTrees, List.filter_map, ← pragmaTrees, rawPragmasAll_pragmaTrees]
  rfl

/-- The declarations among the pragmas in front of a rule are put before the others, which leaves their order. -/
theorem bound_filter_isDeclaration (ps : List (String × String)) (ds : Assoc) :
    bound (rawPragmasAll ((pragmaTrees ps).filter Reader.isDeclaration)) ++
      (bound (rawPragmasAll ((pragmaTrees ps).filter (!Reader.isDeclaration ·))) ++ ds) = bound ps ++ ds := by
  have hall : bound (rawPragmasAll ((pragmaTrees ps).filter Reader.isDeclaration)) = bound ps := by
    rw [rawPragmasAll_filter, bound, List.filterMap_filter]
    refine List.filterMap_congr fun p _ => ?_
    split
    · rfl
    · rename_i hp
      exact (declaration?_eq_none (by simpa using hp)).symm
  have hnone : bound (rawPragmasAll ((pragmaTrees ps).filter (!Reader.isDeclaration ·))) = [] := by
    rw [rawPragmasAll_filter, bound, List.filterMap_filter, List.filterMap_eq_nil_iff]
    intro p _
    split
    · rename_i hp
      exact declaration?_eq_none (by simpa using hp)
    · rfl
  rw [hall, hnone, List.nil_append]

/-- The pragmas in front of a rule count before those in it, whichever of them are put below the rule. -/
theorem IsRule.exists_counted_append {qs : List Tree} (h : IsRule J qs us t) : ∃ bs,
    t.rawPragmas = rawPragmasAll qs ++ bs ∧ ∀ ps vs, counted ps [] (us ++ vs) = ps ++ (bs ++ counted [] [] vs) := by
  obtain ⟨m, name, hs, ht⟩ := h
  rename_i s us t
  refine ⟨t.rawPragmas, ?_, fun ps vs => ?_⟩
  · rw [Tree.named, rawPragmas, rawPragmasAll_append, rawPragmasAll_singleton]
    rfl
  · have hs : s.isOrdinary = true := by rcases hs with rfl | rfl <;> rfl
    have hhead : ∀ u ∈ markTokens m ++ [.ident name, s], u.isOrdinary = true := by
      simp only [List.forall_mem_append, List.forall_mem_cons]
      exact ⟨isOrdinary_markTokens m, rfl, hs, by simp⟩
    have hbegin : counted ps [] (markTokens m ++ [.ident name, s] ++ (us ++ [.period] ++ vs)) =
        ps ++ counted [] [] (us ++ [.period] ++ vs) := counted_append_ordinary hhead (by simp)
    simp only [List.append_assoc, List.cons_append, List.nil_append] at hbegin ⊢
    rw [hbegin, ht.counted_append, counted_cons rfl, List.nil_append]

theorem IsRules.bound_counted (h : IsRules J us ts) : bound (counted [] [] us) = bound (rawPragmasAll ts) := by
  induction h with
  | one ps qs hr =>
    obtain ⟨bs, ht, hc⟩ := hr.exists_counted_append
    have hend : counted [] [] (pragmaTokens qs) = qs := by
      rw [← List.append_nil (pragmaTokens qs), counted_pragmaTokens]
      simp [counted]
    rw [List.append_assoc, counted_pragmaTokens, List.nil_append, hc, hend, rawPragmasAll_append, rawPragmasAll, ht,
      rawPragmasAll_pragmaTrees]
    simp only [bound_append, List.append_assoc]
    rw [bound_filter_isDeclaration]
  | cons ps hr hts ih =>
    obtain ⟨bs, ht, hc⟩ := hr.exists_counted_append
    rw [List.append_assoc, counted_pragmaTokens, List.nil_append, hc, rawPragmasAll_append, rawPragmasAll, ht]
    simp only [bound_append, List.append_assoc]
    rw [bound_filter_isDeclaration, ih]

/-- The declarations of a grammar stand in its trees in the order in which they count. -/
theorem IsGrammar.bound_counted (h : IsGrammar J us ts) : bound (counted [] [] us) = bound (rawPragmasAll ts) := by
  cases h with
  | plain h => exact h.bound_counted
  | prolog ps qs v h =>
    rename_i us ts
    have hprolog : counted [] [] (pragmaTokens ps ++
        .ident "ixml" :: .ident "version" :: .string v :: pragmaTokens qs ++ .period :: us) =
          ps ++ (qs ++ counted [] [] us) := by
      rw [List.append_assoc, counted_pragmaTokens, List.nil_append, List.cons_append, counted_cons rfl, List.cons_append,
        counted_cons rfl, List.cons_append, counted_cons rfl, List.nil_append, List.nil_append, counted_pragmaTokens,
        List.nil_append, counted_cons rfl]
    rw [hprolog, bound_append, bound_append, h.bound_counted, List.cons_append, rawPragmasAll, rawPragmasAll_append,
      rawPragmasAll_pragmaTrees, ← bound_append, ← bound_append, ← List.append_assoc]
    rfl

end Phrase

/-! ### The store -/

namespace Layout

/-- The pragmas in a layout, in order. -/
theorem filterMap_spots (q : Option NodeId) (t : Layout) :
    (spots q t).filterMap (·.label.kind.pragma?) = t.erase.rawPragmas := by
  induction t generalizing q with
  | node i l ts ih =>
    have hall : ∀ us : List Layout, (∀ u ∈ us, (spots (some i) u).filterMap (·.label.kind.pragma?) = u.erase.rawPragmas) →
        (spotsAll (some i) us).filterMap (·.label.kind.pragma?) = Tree.rawPragmasAll (us.map erase) := by
      intro us hus
      induction us with
      | nil => simp [Tree.rawPragmasAll]
      | cons u us ih =>
        rw [List.forall_mem_cons] at hus
        rw [spotsAll_cons, List.filterMap_append, hus.1, ih hus.2, List.map_cons, Tree.rawPragmasAll]
    rw [spots_node, erase_node, Tree.rawPragmas, ← hall ts fun u hu => ih u hu (some i), List.filterMap_cons]
    cases l.kind.pragma? <;> rfl

end Layout

namespace Pragma

variable {tokens : List Token} {J : List Layout} {g₀ g : Grammar}

/-- The declarations of a grammar that was read, in the order in which they count. -/
theorem declarations_eq (h : IsForest tokens J g₀) : declarations g₀ = Phrase.bound (Token.counted [] [] tokens) := by
  have hnodes : g₀.nodesFrom Grammar.root = (ofForest J).ids :=
    h.lays.nodesFrom_eq (z := []) (List.mem_singleton_self (ofForest J))
  have hraw : (rawAll g₀).map (fun p => (p.name, p.data)) = Tree.rawPragmasAll (J.map erase) := by
    have := filterMap_spots none (ofForest J)
    rw [erase_node, Tree.rawPragmas] at this
    rw [show Tree.rawPragmasAll (J.map erase) = _ from this.symm, rawAll, hnodes, ← map_id_spots_eq_ids none,
      List.filterMap_map, List.map_filterMap]
    refine List.filterMap_congr fun s hs => ?_
    rw [Function.comp_apply, raw?_eq, h.lays.kind_eq (mem_spotsAll.mpr ⟨_, List.mem_singleton_self _, hs⟩)]
    cases s.label.kind.pragma? <;> rfl
  rw [h.derived.bound_counted, ← hraw, Phrase.bound, List.filterMap_map, declarations]
  rfl

theorem find?_eq_none_iff {n : String} {ds : Assoc} : Assoc.find? n ds = none ↔ ∀ d ∈ ds, d.1 ≠ n := by
  induction ds with
  | nil => simp
  | cons d ds ih =>
    obtain ⟨k, v⟩ := d
    rw [Assoc.find?, List.forall_mem_cons]
    split
    · rename_i hk
      simp [hk]
    · rename_i hk
      rw [ih]
      exact (and_iff_right hk).symm

/-- What the tokens of a text say of the prefixes that are bound when its pragmas are understood. -/
structure BindsFirst (tokens : List Token) (g : Grammar) : Prop where
  /-- A prefix is bound by the first of its declarations that counts. -/
  uri (nsPrefix : String) : g.uri? nsPrefix = Assoc.find? nsPrefix (Phrase.bound (Token.counted [] [] tokens))
  /-- If no declaration stands in front of a group, that is the first in the text. -/
  uri_text : (∀ p ∈ Token.aheadOfGroups [] tokens, declaration? p.1 p.2 = none) → ∀ nsPrefix,
    g.uri? nsPrefix = Assoc.find? nsPrefix (Phrase.bound (tokens.filterMap Token.pragma?))
  /-- A prefix is bound exactly if there is a declaration of it. -/
  isSome_uri_iff (nsPrefix : String) : (g.uri? nsPrefix).isSome ↔
    ∃ p ∈ tokens.filterMap Token.pragma?, ∃ uri, declaration? p.1 p.2 = some (nsPrefix, uri)
  reserved : g.uri? "xml" = none ∧ g.uri? "xmlns" = none

theorem declaration?_ne_reserved {name data nsPrefix uri : String} (h : declaration? name data = some (nsPrefix, uri)) :
    nsPrefix ≠ "xml" ∧ nsPrefix ≠ "xmlns" := by
  rw [declaration?, Option.bind_eq_some_iff] at h
  obtain ⟨n, -, h⟩ := h
  split at h
  · cases h
  · rename_i hn
    obtain ⟨rfl, -⟩ := Prod.mk.inj (Option.some.inj h)
    exact ⟨fun he => hn (.inl he), fun he => hn (.inr (.inl he))⟩

theorem BindsFirst.of_uri (h : ∀ n, g.uri? n = Assoc.find? n (Phrase.bound (Token.counted [] [] tokens))) :
    BindsFirst tokens g := by
  have hmem {d : String × String} : d ∈ Phrase.bound (Token.counted [] [] tokens) ↔
      ∃ p ∈ tokens.filterMap Token.pragma?, declaration? p.1 p.2 = some d := by
    rw [Phrase.bound, List.mem_filterMap]
    have hperm : (Token.counted [] [] tokens).Perm (tokens.filterMap Token.pragma?) := Token.counted_perm [] [] tokens
    simp only [hperm.mem_iff]
  refine ⟨h, fun hnone n => ?_, fun n => ?_, ?_⟩
  · rw [h, Phrase.bound, Token.filterMap_counted (by simp) hnone]
    rfl
  · rw [h, Option.isSome_iff_ne_none, ne_eq, find?_eq_none_iff]
    push Not
    constructor
    · rintro ⟨⟨k, uri⟩, hd, rfl⟩
      obtain ⟨p, hp, hd⟩ := hmem.mp hd
      exact ⟨p, hp, uri, hd⟩
    · rintro ⟨p, hp, uri, hd⟩
      exact ⟨(n, uri), hmem.mpr ⟨p, hp, hd⟩, rfl⟩
  · rw [h, h, find?_eq_none_iff, find?_eq_none_iff]
    constructor <;> rintro ⟨k, uri⟩ hd <;> obtain ⟨p, -, hd⟩ := hmem.mp hd
    · exact (declaration?_ne_reserved hd).1
    · exact (declaration?_ne_reserved hd).2

/-- The first declaration of a prefix that counts binds it. -/
theorem bindsFirst_of_understood {source : String} {tokens : List Token.Placed} (hs : Token.scan source = .ok tokens)
    (hu : Grammar.understood source = .ok g) : BindsFirst (tokens.map (·.token)) g := by
  obtain ⟨tokens', J, g₀, hs', -, hJ, hg⟩ := exists_attaches_of_understood hu
  obtain rfl : tokens = tokens' := Except.ok.inj (hs.symm.trans hs')
  exact .of_uri fun n => by rw [hg.uri, declarations_eq hJ]

/-- A text with a declaration in front of a group, another of the same prefix in the group, and a third one after it. -/
def threeDeclarations : String :=
  "s: \x7b[ixmlns:n \"urn:one\"]\x7d (\x7b[ixmlns:n \"urn:two\"]\x7d a), \x7b[ixmlns:n \"urn:three\"]\x7d a. a: 'x'."

theorem bindsFirst_of_understood_group : ∃ tokens g, Token.scan threeDeclarations = .ok tokens ∧
    Grammar.understood threeDeclarations = .ok g ∧ BindsFirst (tokens.map (·.token)) g ∧
    g.uri? "n" = some "urn:two" := by
  obtain ⟨tokens, hs⟩ := exists_eq_ok (x := Token.scan threeDeclarations) (by decide +kernel)
  obtain ⟨g, hu, hg⟩ := exists_eq_ok_and (x := Grammar.understood threeDeclarations)
    (p := fun g => g.uri? "n" = some "urn:two") (by decide +kernel)
  exact ⟨tokens, g, hs, hu, bindsFirst_of_understood hs hu, of_decide_eq_true hg⟩

/-- It is not always the first declaration in the text that binds a prefix. -/
theorem uri_ne_first_in_text : ∃ tokens g, Token.scan threeDeclarations = .ok tokens ∧
    Grammar.understood threeDeclarations = .ok g ∧
    Assoc.find? "n" (Phrase.bound ((tokens.map (·.token)).filterMap Token.pragma?)) = some "urn:one" ∧
    g.uri? "n" = some "urn:two" := by
  obtain ⟨tokens, hs, ht⟩ := exists_eq_ok_and (x := Token.scan threeDeclarations)
    (p := fun tokens =>
      Assoc.find? "n" (Phrase.bound ((tokens.map (·.token)).filterMap Token.pragma?)) = some "urn:one")
    (by decide +kernel)
  obtain ⟨g, hu, hg⟩ := exists_eq_ok_and (x := Grammar.understood threeDeclarations)
    (p := fun g => g.uri? "n" = some "urn:two") (by decide +kernel)
  exact ⟨tokens, g, hs, hu, of_decide_eq_true ht, of_decide_eq_true hg⟩

end Pragma

end Ixml
