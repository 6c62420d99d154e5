import Ixml.Proofs.Compile.Checking
import Ixml.Proofs.Compile.Language
import Ixml.Proofs.Grammar.Terminals

/-!
# A grammar of a single terminal

The text of one rule, whose only alternative is a term for a terminal, compiles in every way to one rule with one
terminal, which accepts the characters that the term stands for (`exists_ofSource_eq_ok`).
-/

namespace Ixml

open Layout Simplify Bnf.OfGrammar

variable {F J W : List Layout} {rootLabel : Label} {b g : Grammar} {t : Tree} {source name s : String}
  {accepts : Char → Bool} {u : Layout} {xs : List Symbol}

/-- A rule with one alternative, which is one factor. -/
def Tree.alone (name : String) (t : Tree) : Tree :=
  .named (.rule .element none) name [.ofKind .alts [.ofKind .alt [t]]]

/-! ### Reading -/

namespace Phrase

open Token (IsSpelt EndsTerm EndsFactor)

theorem read_alone (hname : IsSpelt (.ident name)) (h : Spelled EndsTerm s (IsTerm never · t)) :
    Grammar.read (name ++ ": " ++ s ++ ".") = .ok (Grammar.ofForest [.alone name t]) := by
  obtain ⟨us, ht, hus⟩ := h
  have hfactor := IsFactor.bare [] ht
  rw [append_pragmaTrees_nil] at hfactor
  have halts : IsAlts never ((us ++ []) ++ []) (.ofKind .alts [.ofKind .alt [t]]) := .mk (.commas hfactor .nil) .nil
  rw [List.append_nil, List.append_nil] at halts
  obtain ⟨vs, hrule, hvs⟩ := spelled_rule none hname ⟨us, halts, hus.mono fun _ => EndsFactor.endsTerm⟩
  have hrules : IsRules never (vs ++ []) [.alone name t] := .one [] [] hrule
  rw [List.append_nil] at hrules
  refine Spelled.read_eq ⟨vs, hrules, ?_⟩
  simpa [String.append_assoc, Mark.ruleSign] using hvs

end Phrase

/-! ### Understanding -/

theorem Pragma.rawAll_ofForest {F : List Tree} (hnamed : ∀ t ∈ F, IsNamed t)
    (hF : ∀ t ∈ F, t.Every fun l _ => l.kind.isPragma = false) : Pragma.rawAll (Grammar.ofForest F) = [] := by
  obtain ⟨J, rfl, hJ⟩ := planted_foldl planted_empty hnamed
  obtain ⟨⟨b, hl, -⟩, -⟩ := hJ
  have hids : (Pragma.rawAll (Grammar.ofForest (J.map erase))).map (·.id) = _ := Pragma.map_id_rawAll hl.lays rfl
  rw [← List.map_eq_nil_iff (f := (·.id)), hids, rawIds, List.map_eq_nil_iff, List.filter_eq_nil_iff]
  have hall : (node Grammar.root { kind := .ixml } ([] ++ J)).Every fun l _ => l.kind.isPragma = false :=
    every_node.mpr ⟨rfl, fun t ht => hF _ (List.mem_map_of_mem ht)⟩
  intro q hq
  rw [hall.of_mem_spots hq]
  exact Bool.false_ne_true

/-- Without pragmas, what is read is understood as it is. -/
theorem understood_of_read {F : List Tree} (hnamed : ∀ t ∈ F, IsNamed t)
    (hF : ∀ t ∈ F, t.Every fun l _ => l.kind.isPragma = false) (h : Grammar.read source = .ok (Grammar.ofForest F)) :
    Grammar.understood source = .ok (Grammar.ofForest F) := by
  have hnone : Pragma.understandAll.perform (Grammar.ofForest F) = (.ok (), ⟨Grammar.ofForest F, []⟩) := by
    show Work.perform (Pragma.declareAll (Pragma.rawAll (Grammar.ofForest F)) >>= _) _ = _
    rw [Pragma.rawAll_ofForest hnamed hF]
    rfl
  rw [Grammar.understood, h]
  simp only [bind, Except.bind, hnone]
  rfl

theorem Simplify.Holds.tree_root (h : Holds rootLabel b J W g) :
    g.tree Grammar.root = .node rootLabel (J.map erase) := by
  obtain ⟨junk, h⟩ := h
  have htree := h.lays.tree_eq (z := []) (List.mem_cons_self ..)
  rwa [erase_node] at htree

/-! ### The terminal -/

theorem exists_of_erase_eq {l : Label} {ts : List Tree} (h : u.erase = .node l ts) :
    ∃ i us, u = node i l us ∧ us.map erase = ts := by
  obtain ⟨i, k, us⟩ := u
  rw [erase_node] at h
  obtain ⟨rfl, rfl⟩ := Tree.node.inj h
  exact ⟨i, us, rfl, rfl⟩

theorem Phrase.IsTerminal.every (h : IsTerminal accepts t) :
    t.Every fun l _ => l.kind.isPragma = false ∧ l.kind.isNonterminal = false ∧ l.kind.isCompound = false := by
  cases h with
  | char => exact Tree.every_node.mpr ⟨⟨rfl, rfl, rfl⟩, nofun⟩
  | @set inclusion ks hks =>
    refine Tree.every_node.mpr ⟨by cases inclusion <;> exact ⟨rfl, rfl, rfl⟩, List.forall_mem_map.mpr fun k hk => ?_⟩
    refine Tree.every_node.mpr ⟨?_, nofun⟩
    have hk := hks k hk
    cases k <;> first | exact ⟨rfl, rfl, rfl⟩ | cases hk

theorem Bnf.OfGrammar.Becomes.exists_terminal (h : Becomes g u xs) (hu : Phrase.IsTerminal accepts u.erase) :
    ∃ m a, xs = [.terminal m a] ∧ a.mark ≠ '+' ∧ ∀ c, m.accepts c = accepts c := by
  generalize hv : u.erase = v at hu
  cases hu with
  | @char value d hvalue hacc =>
    obtain ⟨i, us, rfl, -⟩ := exists_of_erase_eq hv
    cases h with
    | literal hl =>
      obtain ⟨rfl, rfl⟩ := Construct.literal.inj hl
      refine ⟨.char d, terminalAttributes .keep, ?_, by decide, fun c => (hacc c).symm⟩
      rw [hvalue, String.toList_singleton]
      rfl
    | nonterminal hl => cases hl
    | insertion hl => cases hl
    | @set _ _ _ _ inclusion _ _ hl => cases inclusion <;> cases hl
  | @set inclusion ks hks hacc =>
    obtain ⟨i, us, rfl, hus⟩ := exists_of_erase_eq hv
    have hkinds : us.map kind = ks := by
      have hmap := congrArg (List.map Tree.kind) hus
      rw [List.map_map, List.map_map] at hmap
      simpa [Function.comp_def, show ∀ k, (Tree.ofKind k).kind = k from fun _ => rfl] using hmap
    cases h with
    | literal hl => cases inclusion <;> cases hl
    | nonterminal hl => cases inclusion <;> cases hl
    | insertion hl => cases inclusion <;> cases hl
    | @set _ _ _ mark inclusion' S d hl hS hd =>
      obtain ⟨rfl, rfl⟩ : mark = .keep ∧ inclusion' = inclusion := by
        cases inclusion <;> cases inclusion' <;> cases hl <;> exact ⟨rfl, rfl⟩
      refine ⟨_, _, rfl, by decide, fun c => ?_⟩
      rw [Bool.eq_iff_iff, Matcher.accepts_set_iff, hacc, hS, ← hkinds]
      simp

theorem exists_of_erase_alone (h : J.map erase = [.alone name t]) :
    ∃ i p j x, J = [node i { kind := .rule .element none, name := some name }
      [node p { kind := .alts } [node j { kind := .alt } [x]]]] ∧ x.erase = t := by
  obtain ⟨T, rfl, hT⟩ := List.map_eq_singleton_iff.mp h
  obtain ⟨i, us, rfl, hus⟩ := exists_of_erase_eq hT
  obtain ⟨G, rfl, hG⟩ := List.map_eq_singleton_iff.mp hus
  obtain ⟨p, vs, rfl, hvs⟩ := exists_of_erase_eq hG
  obtain ⟨A, rfl, hA⟩ := List.map_eq_singleton_iff.mp hvs
  obtain ⟨j, xs, rfl, hxs⟩ := exists_of_erase_eq hA
  obtain ⟨x, rfl, hx⟩ := List.map_eq_singleton_iff.mp hxs
  exact ⟨i, p, j, x, rfl, hx⟩

section Layouts

variable {i p j : NodeId} {l k : Label} {x : Layout} {B : Bnf}

theorem check_of_alone (h : Holds rootLabel b [u] W g) (hr : u.kind.isRule = true)
    (hu : u.Every fun l _ => l.kind.isNonterminal = false) (undefinedToo : Bool) : g.check undefinedToo = .ok () := by
  have hfilter : [u].filter (·.kind.isRule) = [u] := List.filter_cons_of_pos hr
  refine Grammar.check_eq_ok_iff.mpr ⟨?_, fun _ rule hrule => ?_⟩
  · rw [names_eq h, hfilter]
    exact List.nodup_singleton _
  · rw [h.rules_eq, hfilter] at hrule
    obtain rfl := List.mem_singleton.mp hrule
    refine (forall_references_iff h (List.mem_singleton_self u)).mpr (hu.mono fun l _ hl hk => ?_)
    rw [hl] at hk
    cases hk

/-- Steps of simplification keep the stock sound, so that the builder accepts the rule without its group. -/
theorem IsUnderstood.exists_isBuilt_of_alone (h : IsUnderstood rootLabel b [node i l [node p k [x]]] g)
    (hl : l.kind.isRule = true) (hk : k.kind = .alts) (hx : Canonical (node i l [x])) (strategy : Strategy) :
    ∃ B, Bnf.ofGrammar (simplify strategy g).grammar = .ok B ∧
      IsBuilt (simplify strategy g).grammar [node i l [x]] B := by
  have hsound : Stock.Sound ⟨[node i l [x]], b.madeUp⟩ :=
    sound_of_steps (.single (Step.split (A := []) (B := []) hl hk .nil)) h.sound
  have hsimple := holds_simplify_of_alone h.holds hl hk hx h.isSome_start strategy
  obtain ⟨t, ht, hr, hname⟩ := h.exists_start
  obtain rfl := List.mem_singleton.mp ht
  obtain ⟨n, hn⟩ := Option.isSome_iff_exists.mp h.isSome_start
  exact exists_ofGrammar_eq_ok hsimple hsound (by simpa using hx) hn
    ⟨_, List.mem_singleton_self _, hl, nameText_of_name (hname.trans hn)⟩

theorem Bnf.OfGrammar.IsBuilt.exists_terminal (h : IsBuilt g [node i l [node j k [x]]] B) (hl : l.kind.isRule = true)
    (hx : Phrase.IsTerminal accepts x.erase) : ∃ r m a, B.rules = [r] ∧ r.name = l.nameText ∧ r.rhs = [.terminal m a] ∧
      ∀ c, m.accepts c = accepts c := by
  obtain ⟨rs, hrs, hrules⟩ := h.rules
  rw [List.filter_cons_of_pos (by simpa using hl), List.filter_nil] at hrs
  obtain ⟨r, _, hr, hnil, rfl⟩ := List.forall₂_cons_left_iff.mp hrs
  cases hnil
  obtain ⟨a, parts, ha, hparts, hrhs⟩ := hr.rhs
  obtain rfl := List.singleton_inj.mp ha
  obtain ⟨xs, _, hxs, hnil, rfl⟩ := List.forall₂_cons_left_iff.mp hparts
  cases hnil
  obtain ⟨m, attributes, rfl, hmark, hacc⟩ := hxs.exists_terminal hx
  refine ⟨r, m, attributes, ?_, ?_, hrhs, hacc⟩
  · -- a terminal is no insertion, so that no empty rule is added
    rw [hrules, if_neg]
    simpa [hrhs, isInsertion, Symbol.attributes] using hmark
  · rw [Rule.name, hr.lhs]
    rfl

end Layouts

/-- A term for a terminal, as the only one of a rule, compiles to a terminal that accepts the same characters. -/
theorem exists_ofSource_eq_ok (hname : Token.IsSpelt (.ident name)) (ht : Phrase.IsTerminal accepts t)
    (h : Phrase.Spelled Token.EndsTerm s (Phrase.IsTerm Phrase.never · t)) (options : Options) :
    ∃ B r m a, Bnf.ofSource (name ++ ": " ++ s ++ ".") options = .ok B ∧ B.rules = [r] ∧ r.name = name ∧
      r.rhs = [.terminal m a] ∧ ∀ c, m.accepts c = accepts c := by
  have hnamed : ∀ v ∈ [Tree.alone name t], IsNamed v := by simp [IsNamed, Tree.alone, Tree.named, Tree.label]
  have hplain : ∀ v ∈ [Tree.alone name t], v.Every fun l _ => l.kind.isPragma = false := by
    simpa [Tree.alone, Tree.named, Tree.ofKind, Construct.isPragma] using ht.every.mono fun _ _ h => h.1
  have hu := understood_of_read hnamed hplain (Phrase.read_alone hname h)
  obtain ⟨rootLabel, b, J, hJ⟩ := exists_isUnderstood hu
  have htree := hJ.holds.tree_root.symm.trans (tree_ofForest hnamed)
  obtain ⟨i, p, j, x, rfl, rfl⟩ := exists_of_erase_alone (Tree.node.inj htree).2
  have hx : x.Every fun l _ =>
    l.kind.isPragma = false ∧ l.kind.isNonterminal = false ∧ l.kind.isCompound = false := ht.every
  have hcheck := check_of_alone hJ.holds rfl
    (by simpa [Construct.isNonterminal] using hx.mono fun _ _ hl => hl.2.1) options.checkUndefinedNonterminals
  have hcan : Canonical (node i { kind := .rule .element none, name := some name } [node j { kind := .alt } [x]]) :=
    ⟨fun _ => rfl, by simpa [Construct.isCompound] using hx.mono fun _ _ hl => hl.2.2⟩
  obtain ⟨B, hB, hbuilt⟩ := hJ.exists_isBuilt_of_alone rfl rfl hcan options.strategy
  obtain ⟨r, m, a, hr⟩ := hbuilt.exists_terminal rfl ht
  refine ⟨B, r, m, a, ?_, hr⟩
  exact bnf_ofSource_eq_ok_iff.mpr ⟨_, ofSource_eq_ok_iff.mpr ⟨_, hu, hcheck, rfl⟩, hB⟩

end Ixml
