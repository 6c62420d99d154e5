import Ixml.Bnf.Build
import Ixml.Proofs.CharSet.Members
import Ixml.Proofs.Simplify.Passes

/-!
# The rules of a canonical grammar

What is flat becomes symbols (`Becomes`), a canonical rule becomes one rule with these symbols in order, and
so the builder accepts every canonical grammar that has its first rule (`exists_ofGrammar_eq_ok`). What it
builds is described by `IsBuilt`. The description of a set is the notation of its members (`Grammar.setNotation`).
-/

namespace Ixml

open Layout

/-! ### Nodes in a store -/

/-- A store has every node of a layout. -/
def Keeps (g : Grammar) (t : Layout) : Prop :=
  ∃ q, ∀ s ∈ spots q t, g.node s.id = s.node

namespace Keeps

variable {g : Grammar} {t c : Layout}

theorem toLabel_eq (h : Keeps g t) : (g.node t.id).toLabel = t.label := by
  obtain ⟨q, h⟩ := h
  rw [show t.id = (top q t).id from rfl, h _ (top_mem_spots q t)]
  rfl

theorem kind_eq (h : Keeps g t) : g.kind t.id = t.kind :=
  congrArg Label.kind h.toLabel_eq

theorem nameText_eq (h : Keeps g t) : g.nameText t.id = t.label.nameText :=
  congrArg Label.nameText h.toLabel_eq

theorem children_eq (h : Keeps g t) : g.children t.id = t.children.map Layout.id := by
  obtain ⟨q, h⟩ := h
  rw [Grammar.children, show t.id = (top q t).id from rfl, h _ (top_mem_spots q t), node_top]

theorem child (h : Keeps g t) (hc : c ∈ t.children) : Keeps g c := by
  obtain ⟨q, h⟩ := h
  exact ⟨some t.id, fun s hs => h s (mem_spots.mpr (Or.inr ⟨c, hc, hs⟩))⟩

end Keeps

theorem Simplify.Holds.keeps {rootLabel : Label} {b g : Grammar} {J W : List Layout} {t : Layout}
    (h : Holds rootLabel b J W g) (ht : t ∈ J) : Keeps g t :=
  ⟨some Grammar.root, fun _ hs => h.spot_eq (mem_spotsAll.mpr ⟨t, ht, hs⟩)⟩

/-! ### Walks that succeed -/

theorem exists_mapM_eq_ok {ε α β : Type} {f : α → Except ε β} {R : α → β → Prop} {l : List α}
    (h : ∀ x ∈ l, ∃ y, f x = .ok y ∧ R x y) : ∃ ys, l.mapM f = .ok ys ∧ List.Forall₂ R l ys := by
  induction l with
  | nil => exact ⟨[], rfl, .nil⟩
  | cons x l ih =>
    obtain ⟨y, hy, hR⟩ := h x (List.mem_cons_self ..)
    obtain ⟨ys, hys, hRs⟩ := ih fun x hx => h x (List.mem_cons_of_mem _ hx)
    refine ⟨y :: ys, ?_, .cons hR hRs⟩
    rw [List.mapM_cons, hy, hys]
    rfl

namespace Construct

/-- A set, or the exclusion of one. -/
def setOf (mark : TerminalMark) (inclusion : Bool) : Construct :=
  if inclusion then .inclusion mark else .exclusion mark

@[simp] theorem isNonterminal_setOf (mark : TerminalMark) (inclusion : Bool) :
    (setOf mark inclusion).isNonterminal = false := by
  cases inclusion <;> rfl

end Construct

/-- The notation of a set with given members, which hold nothing themselves. -/
def Grammar.setNotation (inclusion : Bool) (members : List Label) : String :=
  (if inclusion then "" else "~") ++ setText (members.map fun l => nodeText l true [])

namespace Bnf.OfGrammar

open Simplify

/-- The symbols that a factor becomes. -/
inductive Becomes (g : Grammar) : Layout → List Symbol → Prop
  | nonterminal {i : NodeId} {l : Label} {ts : List Layout} (hl : l.kind.isNonterminal = true) :
    Becomes g (node i l ts) [usedSymbol g l]
  | literal {i : NodeId} {l : Label} {ts : List Layout} {mark : TerminalMark} {value : Literal}
    (hl : l.kind = .literal mark value) :
    Becomes g (node i l ts)
      (literalSymbols mark value.text.toList (firstOf Directive.replacement? l.pragmas))
  | insertion {i : NodeId} {l : Label} {ts : List Layout} {value : Literal} (hl : l.kind = .insertion value) :
    Becomes g (node i l ts) [insertionSymbol ((firstOf Directive.replacement? l.pragmas).getD value.text)]
  | set {i : NodeId} {l : Label} {ts : List Layout} {mark : TerminalMark} {inclusion : Bool} {s : CharSet}
    {description : String} (hl : l.kind = .setOf mark inclusion)
    (hs : ∀ c, s.contains c = true ↔ ∃ t ∈ ts, t.kind.Admits c)
    (hd : description = Grammar.setNotation inclusion (ts.map Layout.label)) :
    Becomes g (node i l ts) [.terminal (.set s inclusion description) (terminalAttributes mark)]

namespace Becomes

variable {g : Grammar} {t : Layout} {xs : List Symbol} {n d : String} {a : Attributes} {s : CharSet} {inclusion : Bool}

/-- A reference becomes a nonterminal, and so does an insertion. -/
theorem nonterminal_cases (h : Becomes g t xs) (hx : .nonterminal n a ∈ xs) :
    (t.kind.isNonterminal = true ∧ n = t.label.nameText ∧ .nonterminal n a = usedSymbol g t.label) ∨
      n = insertionRule ∧ ∃ text, .nonterminal n a = insertionSymbol text := by
  cases h with
  | nonterminal hl =>
    have he := List.mem_singleton.mp hx
    exact .inl ⟨hl, (Symbol.nonterminal.inj he).1, he⟩
  | literal hl =>
    obtain ⟨j, hj, he⟩ := List.mem_mapIdx.mp hx
    cases he
  | insertion hl =>
    have he := List.mem_singleton.mp hx
    exact .inr ⟨(Symbol.nonterminal.inj he).1, _, he⟩
  | set hl => cases List.mem_singleton.mp hx

theorem eq_of_isNonterminal (h : Becomes g t xs) (hk : t.kind.isNonterminal = true) : xs = [usedSymbol g t.label] := by
  cases h with
  | nonterminal hl => rfl
  | literal hl => simp [hl, Construct.isNonterminal] at hk
  | insertion hl => simp [hl, Construct.isNonterminal] at hk
  | set hl => simp [hl] at hk

/-- Only a set becomes one, with the members that it has. -/
theorem set_cases (h : Becomes g t xs) (hx : .terminal (.set s inclusion d) a ∈ xs) :
    (∃ mark, t.kind = .setOf mark inclusion) ∧ (∀ c, s.contains c = true ↔ ∃ u ∈ t.children, u.kind.Admits c) ∧
      d = Grammar.setNotation inclusion (t.children.map Layout.label) := by
  cases h with
  | nonterminal hl => cases List.mem_singleton.mp hx
  | literal hl =>
    obtain ⟨j, hj, he⟩ := List.mem_mapIdx.mp hx
    cases he
  | insertion hl => cases List.mem_singleton.mp hx
  | set hl hs hd =>
    obtain ⟨⟨rfl, rfl, rfl⟩, -⟩ : (_ ∧ _ ∧ _) ∧ _ := by simpa using List.mem_singleton.mp hx
    exact ⟨⟨_, hl⟩, hs, hd⟩

end Becomes

/-- The rule that a rule with a single alternative becomes. -/
structure BecomesRule (g : Grammar) (t : Layout) (r : Rule) : Prop where
  lhs : r.lhs = definedSymbol g t.label
  rhs : ∃ a parts, t.children = [a] ∧ List.Forall₂ (Becomes g) a.children parts ∧ r.rhs = parts.flatten

/-- The rules that some layouts become, with the shared empty rule of insertions if it is needed. -/
structure IsBuilt (g : Grammar) (J : List Layout) (b : Bnf) : Prop where
  rules : ∃ rs, List.Forall₂ (BecomesRule g) (J.filter (·.kind.isRule)) rs ∧
    b.rules = if rs.any (·.rhs.any isInsertion) then rs ++ [insertionRuleEntry] else rs
  start : ∃ t, (J.find? fun t => t.kind.isRule && some t.label.nameText == g.start) = some t ∧
    b.start = definedSymbol g t.label
  version : b.version = g.version
  defaultNamespace : b.defaultNamespace = g.defaultNamespace

variable {g : Grammar} {t : Layout} {ts : List Layout} {n : String} {S : CharSet} {m : Nat}

/-! ### Sets -/

theorem addMember_spec (ht : Keeps g t) (hm : t.kind.isMember = true) (hS : S.IsOrdered) :
    ∃ T, addMember g n S t.id = .ok T ∧ T.IsOrdered ∧
      ∀ c, T.contains c = true ↔ S.contains c = true ∨ t.kind.Admits c := by
  rw [addMember, ht.kind_eq]
  cases hk : t.kind <;> simp only [hk, Construct.isMember, Bool.false_eq_true] at hm
  case literal mark value =>
    exact ⟨_, rfl, (CharSet.insertAll_spec (c := ' ') hS _).1, fun c => (CharSet.insertAll_spec hS _).2⟩
  case range a b =>
    exact ⟨_, rfl, (CharSet.insertRange_spec (c := ' ') hS a b).1, fun c => (CharSet.insertRange_spec hS a b).2⟩
  case charClass code =>
    obtain ⟨T, hT, hord, hcont⟩ := CharSet.ofCategory_spec hm
    refine ⟨S.union T, by simp only [hT], (CharSet.union_spec (c := ' ') hS hord).1, fun c => ?_⟩
    rw [(CharSet.union_spec hS hord).2, hcont]
    rfl

theorem addMembers_spec (hts : ∀ t ∈ ts, Keeps g t ∧ t.kind.isMember = true) (hS : S.IsOrdered) :
    ∃ T, (ts.map Layout.id).foldlM (addMember g n) S = .ok T ∧
      ∀ c, T.contains c = true ↔ S.contains c = true ∨ ∃ t ∈ ts, t.kind.Admits c := by
  induction ts generalizing S with
  | nil => exact ⟨S, rfl, by simp⟩
  | cons t ts ih =>
    obtain ⟨hk, hm⟩ := hts t (List.mem_cons_self ..)
    obtain ⟨T, hT, hord, hcont⟩ := addMember_spec (n := n) hk hm hS
    obtain ⟨U, hU, hcont'⟩ := ih (fun u hu => hts u (List.mem_cons_of_mem _ hu)) hord
    refine ⟨U, ?_, fun c => ?_⟩
    · rw [List.map_cons, List.foldlM_cons, hT]
      exact hU
    · simp only [hcont', hcont, List.mem_cons, exists_eq_or_imp, or_assoc]

/-- A member of a set, which has nothing below it, is written by its label. -/
theorem render_member (ht : Keeps g t) (hm : t.kind.isMember = true) (hc : t.children = []) :
    g.render t.id = Grammar.nodeText t.label true [] := by
  have hsize : 0 < g.nodes.size := by
    by_contra h
    have hkind := ht.kind_eq
    rw [Grammar.kind, Grammar.node, Array.getD_eq_getD_getElem?, Array.getElem?_eq_none (by omega)] at hkind
    rw [← show _ = t.kind from hkind] at hm
    cases hm
  obtain ⟨fuel, hfuel⟩ := Nat.exists_eq_succ_of_ne_zero (Nat.ne_of_gt hsize)
  rw [Grammar.render, Grammar.depthBound, hfuel, Grammar.renderTo, ht.toLabel_eq, ht.children_eq, hc]
  rw [kind] at hm
  unfold Grammar.nodeText
  cases hk : t.label.kind <;> simp [hk, Construct.isMember] at hm ⊢

theorem matcherOf_spec (ht : Keeps g t) (hm : ∀ u ∈ t.children, u.kind.isMember = true ∧ u.children = [])
    (inclusion : Bool) : ∃ s, matcherOf g n t.id inclusion =
        .ok (.set s inclusion (Grammar.setNotation inclusion (t.children.map Layout.label))) ∧
      ∀ c, s.contains c = true ↔ ∃ u ∈ t.children, u.kind.Admits c := by
  obtain ⟨s, hs, hcont⟩ := addMembers_spec (n := n) (fun u hu => ⟨ht.child hu, (hm u hu).1⟩)
    CharSet.isOrdered_empty
  have hmembers (c : Char) : s.contains c = true ↔ ∃ u ∈ t.children, u.kind.Admits c := by
    rw [hcont, CharSet.contains_empty]
    simp
  have hparts : (t.children.map Layout.id).map g.render =
      (t.children.map Layout.label).map fun l => Grammar.nodeText l true [] := by
    rw [List.map_map, List.map_map]
    exact List.map_congr_left fun u hu => render_member (ht.child hu) (hm u hu).1 (hm u hu).2
  refine ⟨s, ?_, hmembers⟩
  rw [matcherOf, ht.children_eq, hs, Grammar.setNotation, ← hparts]
  rfl

/-! ### Factors and rules -/

theorem exists_factorSymbols_eq_ok (ht : Keeps g t) (hp : t.Every (Proper m)) (hf : t.kind.isFlat = true) :
    ∃ ss, factorSymbols g n t.id = .ok ss ∧ Becomes g t ss := by
  obtain ⟨i, l, ts⟩ := t
  obtain ⟨hpl, hpts⟩ := every_node.mp hp
  have hmember : ∀ u ∈ ts, u.kind.isMember = true ∧ u.children = [] := fun u hu => by
    have hk := Construct.fits_flat hf hpl.fits _ (List.mem_map_of_mem hu)
    exact ⟨hk, List.map_eq_nil_iff.mp (Construct.fits_member hk (hpts u hu).label.fits)⟩
  have hset (inclusion : Bool) := matcherOf_spec (n := n) ht hmember inclusion
  have hlabel : (g.node i).toLabel = l := ht.toLabel_eq
  rw [factorSymbols, ht.kind_eq, kind_node]
  simp only [id_node] at hset ⊢
  rw [show (g.node i).pragmas = l.pragmas from congrArg Label.pragmas hlabel]
  cases hk : l.kind <;> simp only [hk, kind_node, Construct.isFlat, Bool.false_eq_true] at hf
  case nonterminal mark rename => exact ⟨_, rfl, hlabel ▸ .nonterminal (by rw [hlabel, hk]; rfl)⟩
  case literal mark value => exact ⟨_, rfl, .literal hk⟩
  case insertion value => exact ⟨_, rfl, .insertion hk⟩
  case inclusion mark =>
    obtain ⟨s, hs, hcont⟩ := hset true
    exact ⟨_, by rw [hs]; rfl, .set (show l.kind = .setOf mark true from hk) hcont rfl⟩
  case exclusion mark =>
    obtain ⟨s, hs, hcont⟩ := hset false
    exact ⟨_, by rw [hs]; rfl, .set (show l.kind = .setOf mark false from hk) hcont rfl⟩

theorem exists_ruleFrom_eq_ok (ht : Keeps g t) (hp : t.Every (Proper m)) (hc : Canonical t)
    (hr : t.kind.isRule = true) : ∃ r, ruleFrom g t.id = .ok r ∧ BecomesRule g t r := by
  obtain ⟨a, ha, hk, hflat⟩ := hc.isFlat hp hr
  have hmem : a ∈ t.children := by rw [ha]; exact List.mem_singleton_self a
  have hpa : a.Every (Proper m) := by
    obtain ⟨i, l, ts⟩ := t
    exact (every_node.mp hp).2 a hmem
  have halt := ht.child hmem
  have hsole : soleAlt g t.id = .ok a.id := by
    rw [soleAlt, ht.children_eq, ha]
    simp [halt.kind_eq, hk]
  obtain ⟨parts, hparts, hbec⟩ := exists_mapM_eq_ok (f := fun c : Layout => factorSymbols g (g.nameText t.id) c.id)
    (R := Becomes g) (l := a.children) fun c hc => exists_factorSymbols_eq_ok (halt.child hc)
      (by obtain ⟨j, k, us⟩ := a; exact (every_node.mp hpa).2 c hc) (hflat c hc)
  refine ⟨⟨definedSymbol g t.label, parts.flatten⟩, ?_, rfl, a, parts, ha, hbec, rfl⟩
  rw [ruleFrom, hsole]
  simp only [bind, Except.bind, halt.children_eq, List.mapM_map, Function.comp_def, hparts, ht.toLabel_eq]
  rfl

variable {rootLabel : Label} {b : Grammar} {J : List Layout}

theorem definitions_eq {W : List Layout} (h : Holds rootLabel b J W g) (name : String) :
    g.definitions name = (J.filter fun t => t.kind.isRule && t.label.nameText == name).map Layout.id := by
  rw [Grammar.definitions, h.rules_eq, List.filter_map, List.filter_filter]
  congr 1
  refine List.filter_congr fun t ht => ?_
  rw [Function.comp_apply, (h.keeps ht).nameText_eq, Bool.and_comm]

/-- The builder accepts a canonical grammar that has its first rule. -/
theorem exists_ofGrammar_eq_ok {name : String} (h : Holds rootLabel b J [] g) (hS : Stock.Sound ⟨J, m⟩)
    (hcan : ∀ t ∈ J, Canonical t) (hname : b.start = some name) (hstart : ∃ t ∈ J, IsRuleNamed name t) :
    ∃ B, ofGrammar g = .ok B ∧ IsBuilt g J B := by
  obtain ⟨rs, hrs, hbec⟩ := exists_mapM_eq_ok (f := fun t : Layout => ruleFrom g t.id) (R := BecomesRule g)
    (l := J.filter (·.kind.isRule)) fun t ht => by
      obtain ⟨ht, hr⟩ := List.mem_filter.mp ht
      exact exists_ruleFrom_eq_ok (h.keeps ht) (hS.proper t ht) (hcan t ht) hr
  have hgstart : g.start = some name := h.start_eq.trans hname
  have hfind : ∃ t, (J.find? fun t => t.kind.isRule && some t.label.nameText == g.start) = some t := by
    obtain ⟨t, ht, hr, hn⟩ := hstart
    exact Option.isSome_iff_exists.mp (List.find?_isSome.mpr ⟨t, ht, by simp [hr, hn, hgstart]⟩)
  obtain ⟨t, hfind⟩ := hfind
  have ht := List.mem_of_find?_eq_some hfind
  have hhead : (g.definitions name).head? = some t.id := by
    rw [definitions_eq h, List.head?_map, List.head?_filter]
    simp only [hgstart, Option.some_beq_some] at hfind
    rw [hfind]
    rfl
  refine ⟨⟨_, definedSymbol g t.label, g.version, g.defaultNamespace⟩, ?_, ⟨rs, hbec, rfl⟩, ⟨t, hfind, rfl⟩, rfl, rfl⟩
  rw [ofGrammar, hgstart]
  simp only [Option.bind_some, hhead, bind, Except.bind, h.rules_eq, List.mapM_map, Function.comp_def, hrs,
    h.toLabel_eq ht]
  rfl

end Bnf.OfGrammar

end Ixml
