import Ixml.Proofs.Simplify.Passes

/-!
# The moves of a simplification

A simplification makes one move after another: it splits a rule, replaces a group, gives up a construct, or lets the
waiting rules join. `moves` lists them in the order in which they are made (`run_moves`). On the layouts of a grammar
that is sound each of them is `Moved`, which says what it adds; so all of them together are a `Course`
(`exists_course`), and what every move keeps is true whenever the simplification is interrupted between two moves.
-/

namespace Ixml.Simplify

open Layout Edit

/-- A single change of a grammar in a simplification. -/
inductive Move
  /-- Leave a rule with one alternative. -/
  | split (rule : NodeId)
  /-- Add the shared rule that matches nothing, if it is not there yet. -/
  | share
  /-- Put a reference to the shared rule into the place of a group. -/
  | empty (group : NodeId)
  /-- Give up a construct, unless an earlier move has taken it away from the root. -/
  | giveUp (sort : Sugar) (construct : NodeId)
  /-- Make a group a waiting rule. -/
  | hoist (group : NodeId)
  /-- Let the waiting rules join. -/
  | join
deriving DecidableEq, Repr

/-- The grammar after a move. -/
def Move.make (strategy : Strategy) : Move → Grammar → Grammar
  | split rule, g => (splitRule rule g).2
  | share, g => (addEmptyRule g).2
  | empty group, g => (replaceEmpty group g).2
  | giveUp sort construct, g => (giveUpBelowRoot strategy sort construct g).2
  | hoist group, g => (Simplify.hoist group g).2
  | join, g => g.joinWaiting

/-- The grammar after some moves. -/
def run (strategy : Strategy) (ms : List Move) (g : Grammar) : Grammar :=
  ms.foldl (fun g move => move.make strategy g) g

/-! ### In which order the moves are made -/

def splitMoves (g : Grammar) : List Move :=
  g.rules.map .split ++ [.join]

def emptyMoves (g : Grammar) : List Move :=
  match belowRules g (isEmptyGroup g) with
  | [] => []
  | groups => .share :: groups.map .empty

def giveUpMoves (g : Grammar) (sort : Sugar) : List Move :=
  (belowRules g (sort.isAt g)).map (.giveUp sort) ++ [.join]

def hoistMoves (g : Grammar) : List Move :=
  (belowRules g (isInnerGroup g)).map .hoist ++ [.join]

def giveUpEachMoves (strategy : Strategy) : List Sugar → Grammar → List Move
  | [], _ => []
  | t :: ts, g => giveUpMoves g t ++ giveUpEachMoves strategy ts (giveUpAll strategy t g).2

/-- The moves of a pass. Each part looks at the grammar that the parts before it leave. -/
def passMoves (strategy : Strategy) (g : Grammar) : List Move :=
  let afterSplit := (splitAll g).2
  let afterEmpty := (replaceEmptyAll afterSplit).2
  let afterGiven := (giveUpEach strategy (Sugar.order strategy) afterEmpty).2
  splitMoves g ++ emptyMoves afterSplit ++ giveUpEachMoves strategy (Sugar.order strategy) afterEmpty ++
    hoistMoves afterGiven

def passesMoves (strategy : Strategy) : Nat → Grammar → List Move
  | 0, _ => []
  | fuel + 1, g =>
    passMoves strategy g ++
      if (pass strategy g).1 then passesMoves strategy fuel (pass strategy g).2 else []

/-- All moves of a simplification. -/
def moves (strategy : Strategy) (g : Grammar) : List Move :=
  passesMoves strategy (passBound g) g

variable {strategy : Strategy} {g : Grammar} {ms ns : List Move} {mv : Move}

@[simp] theorem run_cons : run strategy (mv :: ms) g = run strategy ms (mv.make strategy g) := rfl

@[simp] theorem run_append : run strategy (ms ++ ns) g = run strategy ns (run strategy ms g) :=
  List.foldl_append

theorem snd_bind {α β : Type} (x : Edit α) (f : α → Edit β) (g : Grammar) :
    ((x >>= f) g).2 = (f (x g).1 (x g).2).2 := rfl

theorem run_map_anyOf {f : NodeId → Edit Bool} {k : NodeId → Move}
    (h : ∀ i g, (k i).make strategy g = (f i g).2) (ids : List NodeId) (g : Grammar) :
    run strategy (ids.map k) g = (anyOf f ids g).2 := by
  induction ids generalizing g with
  | nil => rfl
  | cons i ids ih =>
    rw [List.map_cons, run_cons, h, ih]
    rfl

theorem run_map_forM {f : NodeId → Edit Unit} {k : NodeId → Move}
    (h : ∀ i g, (k i).make strategy g = (f i g).2) (ids : List NodeId) (g : Grammar) :
    run strategy (ids.map k) g = (ids.forM f g).2 := by
  induction ids generalizing g with
  | nil => rfl
  | cons i ids ih =>
    rw [List.map_cons, run_cons, h, ih]
    rfl

theorem run_splitMoves (strategy : Strategy) (g : Grammar) : run strategy (splitMoves g) g = (splitAll g).2 := by
  rw [splitMoves, run_append, run_map_anyOf (f := splitRule) (k := .split) fun _ _ => rfl]
  rfl

theorem run_emptyMoves (strategy : Strategy) (g : Grammar) :
    run strategy (emptyMoves g) g = (replaceEmptyAll g).2 := by
  have hall : replaceEmptyAll g = (match belowRules g (isEmptyGroup g) with
    | [] => (return false : Edit Bool)
    | groups => do
      addEmptyRule
      groups.forM replaceEmpty
      return true) g := rfl
  rw [hall, emptyMoves]
  cases belowRules g (isEmptyGroup g) with
  | nil => rfl
  | cons i is =>
    rw [run_cons, run_map_forM (f := replaceEmpty) (k := .empty) fun _ _ => rfl]
    rfl

theorem run_giveUpMoves (strategy : Strategy) (g : Grammar) (t : Sugar) :
    run strategy (giveUpMoves g t) g = (giveUpAll strategy t g).2 := by
  rw [giveUpMoves, run_append, run_map_anyOf (f := giveUpBelowRoot strategy t) (k := .giveUp t) fun _ _ => rfl]
  rfl

theorem run_giveUpEachMoves (strategy : Strategy) (ts : List Sugar) (g : Grammar) :
    run strategy (giveUpEachMoves strategy ts g) g = (giveUpEach strategy ts g).2 := by
  induction ts generalizing g with
  | nil => rfl
  | cons t ts ih =>
    rw [giveUpEachMoves, run_append, run_giveUpMoves, ih]
    rfl

theorem run_hoistMoves (strategy : Strategy) (g : Grammar) : run strategy (hoistMoves g) g = (hoistAll g).2 := by
  rw [hoistMoves, run_append, run_map_forM (f := hoist) (k := .hoist) fun _ _ => rfl]
  rfl

theorem run_passMoves (strategy : Strategy) (g : Grammar) :
    run strategy (passMoves strategy g) g = (pass strategy g).2 := by
  simp only [passMoves, run_append, run_splitMoves, run_emptyMoves, run_giveUpEachMoves, run_hoistMoves, pass, snd_bind]
  rfl

theorem run_passesMoves (strategy : Strategy) (fuel : Nat) (g : Grammar) :
    run strategy (passesMoves strategy fuel g) g = (passes strategy fuel g).2 := by
  induction fuel generalizing g with
  | zero => rfl
  | succ fuel ih =>
    rw [passesMoves, run_append, run_passMoves, passes_succ, StateT.run]
    split
    · exact ih _
    · rfl

/-- The moves lead to the simplified grammar. -/
theorem run_moves (strategy : Strategy) (g : Grammar) :
    run strategy (moves strategy g) g = (simplify strategy g).grammar := by
  rw [moves, run_passesMoves, grammar_simplify]

/-! ### What a move does -/

/-- A grammar in a simplification: the layouts that have joined the root, those that wait, and how many names have been
made up. -/
structure Standing where
  grammar : Grammar
  joined : List Layout
  waiting : List Layout
  madeUp : Nat

/-- The addresses and labels of the layouts, those that wait last. -/
def Standing.heads (S : Standing) : List (NodeId × Label) :=
  (S.joined ++ S.waiting).map head

structure Standing.Stands (rootLabel : Label) (b : Grammar) (S : Standing) : Prop where
  holds : Holds rootLabel { b with madeUp := S.madeUp } S.joined S.waiting S.grammar
  sound : Stock.Sound ⟨S.joined ++ S.waiting, S.madeUp⟩

/-- `Adds hs m mv new m'` says which layouts a move adds to those with the tops `hs`, when `m` names have been made up
before it and `m'` after it. -/
inductive Adds (hs : List (NodeId × Label)) (m : Nat) : Move → List (NodeId × Label) → Nat → Prop
  | split {h : NodeId × Label} {new : List (NodeId × Label)} (hh : h ∈ hs) (hr : h.2.kind.isRule = true)
    (hnew : ∀ n ∈ new, n.2.kind = h.2.kind ∧ n.2.nameText = h.2.nameText) : Adds hs m (.split h.1) new m
  | shared : Adds hs m .share [] m
  | share {n : NodeId × Label} (hr : n.2.kind.isRule = true) (hn : n.2.nameText = emptyRule)
    (hhs : ∀ h ∈ hs, h.2.kind.isRule = true → h.2.nameText ≠ emptyRule) : Adds hs m .share [n] m
  | empty (group : NodeId) : Adds hs m (.empty group) [] m
  | giveUp (sort : Sugar) (construct : NodeId) {new : List (NodeId × Label)} {m' : Nat} (h : MadeInTurn m new m') :
    Adds hs m (.giveUp sort construct) new m'
  | hoist (group : NodeId) {new : List (NodeId × Label)} {m' : Nat} (h : MadeInTurn m new m') :
    Adds hs m (.hoist group) new m'
  | join : Adds hs m .join [] m

/-- A move leads from one standing to another. -/
structure Moved (strategy : Strategy) (rootLabel : Label) (b : Grammar) (mv : Move) (S T : Standing) : Prop where
  make : T.grammar = mv.make strategy S.grammar
  stands : T.Stands rootLabel b
  adds : ∃ new, T.heads = S.heads ++ new ∧ Adds S.heads S.madeUp mv new T.madeUp

/-- Some moves lead from one standing to another. -/
inductive Course (strategy : Strategy) (rootLabel : Label) (b : Grammar) : List Move → Standing → Standing → Prop
  | nil (S : Standing) : Course strategy rootLabel b [] S S
  | cons {mv : Move} {ms : List Move} {S T U : Standing} (h : Moved strategy rootLabel b mv S T)
    (hr : Course strategy rootLabel b ms T U) : Course strategy rootLabel b (mv :: ms) S U

variable {rootLabel : Label} {b : Grammar} {S T U : Standing} {J W D C : List Layout} {m : Nat} {v : Layout}
  {τ : Sugar} {R : List NodeId} {i : NodeId}

namespace Course

theorem single (h : Moved strategy rootLabel b mv S T) : Course strategy rootLabel b [mv] S T :=
  .cons h (.nil T)

theorem append (h : Course strategy rootLabel b ms S T) (h' : Course strategy rootLabel b ns T U) :
    Course strategy rootLabel b (ms ++ ns) S U := by
  induction h with
  | nil => exact h'
  | cons h _ ih => exact .cons h (ih h')

theorem grammar_eq (h : Course strategy rootLabel b ms S T) : T.grammar = run strategy ms S.grammar := by
  induction h with
  | nil => rfl
  | cons h _ ih => rw [ih, h.make, run_cons]

theorem congr {g : Grammar} (h : Course strategy rootLabel b ms S T) (hg : run strategy ms S.grammar = g) :
    Course strategy rootLabel b ms S ⟨g, T.joined, T.waiting, T.madeUp⟩ := by
  rw [← hg, ← h.grammar_eq]
  exact h

theorem stands (h : Course strategy rootLabel b ms S T) (hS : S.Stands rootLabel b) : T.Stands rootLabel b := by
  induction h with
  | nil => exact hS
  | cons h _ ih => exact ih h.stands

/-- A course goes through a standing after each of its moves. -/
theorem exists_of_prefix (h : Course strategy rootLabel b ms S T) (hp : ns <+: ms) :
    ∃ U, Course strategy rootLabel b ns S U := by
  induction h generalizing ns with
  | nil S =>
    rw [List.prefix_nil.mp hp]
    exact ⟨S, .nil S⟩
  | @cons mv ms S T V h _ ih =>
    cases ns with
    | nil => exact ⟨S, .nil S⟩
    | cons mv' ns =>
      obtain ⟨he, hp⟩ := List.cons_prefix_cons.mp hp
      obtain ⟨U, hU⟩ := ih hp
      subst he
      exact ⟨U, .cons h hU⟩

end Course

theorem stands_of_advances {J' W' : List Layout} {m' : Nat} {a : Bool} {g' : Grammar}
    (h : Holds rootLabel { b with madeUp := m' } J' W' g') (ha : Advances a J W m J' W' m')
    (hS : Stock.Sound ⟨J ++ W, m⟩) : Standing.Stands rootLabel b ⟨g', J', W', m'⟩ :=
  ⟨h, sound_of_steps ha.steps hS⟩

theorem exists_heads_of_advances {J' W' : List Layout} {m' : Nat} {a : Bool} (g g' : Grammar)
    (ha : Advances a J W m J' W' m') :
    ∃ new, (⟨g', J', W', m'⟩ : Standing).heads = (⟨g, J, W, m⟩ : Standing).heads ++ new ∧ MadeInTurn m new m' := by
  obtain ⟨new, he, hm⟩ := ha.gains
  refine ⟨new, ?_, hm⟩
  rw [Standing.heads, Standing.heads, List.map_append, List.map_append, ha.heads, he, List.append_assoc]

variable (strategy)

/-- A move that advances the grammar adds what has been made in its turn. -/
theorem moved_of_advances {J' W' : List Layout} {m' : Nat} {a : Bool} {g g' : Grammar}
    (hmake : g' = mv.make strategy g) (h : Holds rootLabel { b with madeUp := m' } J' W' g')
    (ha : Advances a J W m J' W' m') (hS : Stock.Sound ⟨J ++ W, m⟩)
    (hadds : ∀ {hs new}, MadeInTurn m new m' → Adds hs m mv new m') :
    Moved strategy rootLabel b mv ⟨g, J, W, m⟩ ⟨g', J', W', m'⟩ := by
  obtain ⟨new, hnew, hmade⟩ := exists_heads_of_advances g g' ha
  exact ⟨hmake, stands_of_advances h ha hS, new, hnew, hadds hmade⟩

theorem moved_split {g : Grammar} (h : (⟨g, D ++ v :: C, W, m⟩ : Standing).Stands rootLabel b)
    (hv : v.kind.isRule = true) :
    ∃ v' rs, Moved strategy rootLabel b (.split v.id) ⟨g, D ++ v :: C, W, m⟩
      ⟨(splitRule v.id g).2, D ++ v' :: C, W ++ rs, m⟩ := by
  obtain ⟨-, v', rs, h₁, hs, -, hhead, hrs⟩ := does_splitRule h.holds h.sound hv
  refine ⟨v', rs, rfl, ⟨h₁, sound_of_steps hs.steps h.sound⟩, rs.map head, ?_, ?_⟩
  · simp [Standing.heads, hhead]
  · refine .split (h := v.head) (List.mem_map_of_mem (by simp)) hv ?_
    rintro n hn
    obtain ⟨r, hr, rfl⟩ := List.mem_map.mp hn
    exact hrs r hr

theorem moved_join {g : Grammar} (h : (⟨g, J, W, m⟩ : Standing).Stands rootLabel b) (hstart : b.start.isSome = true) :
    Moved strategy rootLabel b .join ⟨g, J, W, m⟩ ⟨g.joinWaiting, J ++ W, [], m⟩ := by
  refine ⟨rfl, ⟨holds_joinWaiting h.holds hstart, by simpa using h.sound⟩, [], ?_, .join⟩
  simp [Standing.heads]

theorem moved_share {g : Grammar} (h : (⟨g, J, [], m⟩ : Standing).Stands rootLabel b) (hstart : b.start.isSome = true) :
    ∃ rs, Moved strategy rootLabel b .share ⟨g, J, [], m⟩ ⟨(addEmptyRule g).2, J ++ rs, [], m⟩ ∧
      ∃ r ∈ J ++ rs, IsRuleNamed emptyRule r := by
  obtain ⟨rs, h₁, hs, hrule, -, hcase⟩ := does_addEmptyRule (m := m) h.holds hstart
  have hS : Stock.Sound ⟨J, m⟩ := by simpa using h.sound
  refine ⟨rs, ⟨rfl, ⟨h₁, by simpa using sound_of_steps hs hS⟩, rs.map head, by simp [Standing.heads], ?_⟩, hrule⟩
  rcases hcase with rfl | ⟨⟨r, rfl, hr⟩, hnone⟩
  · exact .shared
  · refine .share hr.1 hr.2 fun n hn hk he => ?_
    obtain ⟨t, ht, rfl⟩ := List.mem_map.mp hn
    rw [List.append_nil] at ht
    exact hnone t ht ⟨hk, he⟩

/-! ### The course of a simplification -/

theorem exists_course_splits {g : Grammar} (h : (⟨g, D ++ C, W, m⟩ : Standing).Stands rootLabel b) :
    ∃ T, Course strategy rootLabel b ((C.filter (·.kind.isRule)).map fun t => Move.split t.id) ⟨g, D ++ C, W, m⟩ T := by
  -- `D` are the rules that have been split, each in its place; what is split off them waits in `W`
  induction C generalizing g D W with
  | nil => exact ⟨_, .nil _⟩
  | cons v C ih =>
    by_cases hv : v.kind.isRule = true
    · rw [List.filter_cons_of_pos (by simpa using hv), List.map_cons]
      obtain ⟨v', rs, hm⟩ := moved_split strategy h hv
      obtain ⟨T, hT⟩ := ih (D := D ++ [v']) (by simpa using hm.stands)
      exact ⟨T, .cons hm (by simpa using hT)⟩
    · rw [List.filter_cons_of_neg (by simpa using hv)]
      obtain ⟨T, hT⟩ := ih (D := D ++ [v]) (by simpa using h)
      exact ⟨T, by simpa using hT⟩

variable {strategy} in
/-- When the waiting rules join, a part of a pass is over. -/
theorem Course.exists_join {g : Grammar} (h : Course strategy rootLabel b ms ⟨g, J, [], m⟩ T)
    (hS : (⟨g, J, [], m⟩ : Standing).Stands rootLabel b) (hstart : b.start.isSome = true) :
    ∃ J' m', Course strategy rootLabel b (ms ++ [.join]) ⟨g, J, [], m⟩
      ⟨run strategy (ms ++ [.join]) g, J', [], m'⟩ := by
  obtain ⟨g', J', W', m'⟩ := T
  obtain rfl : g' = run strategy ms g := h.grammar_eq
  refine ⟨J' ++ W', m', ?_⟩
  rw [run_append]
  exact h.append (.single (moved_join strategy (h.stands hS) hstart))

theorem exists_course_splitMoves {g : Grammar} (h : (⟨g, J, [], m⟩ : Standing).Stands rootLabel b)
    (hstart : b.start.isSome = true) :
    ∃ J' m', Course strategy rootLabel b (splitMoves g) ⟨g, J, [], m⟩ ⟨(splitAll g).2, J', [], m'⟩ := by
  obtain ⟨T, hT⟩ := exists_course_splits strategy (D := []) h
  have hrules : g.rules.map Move.split = (J.filter (·.kind.isRule)).map fun t => Move.split t.id := by
    rw [h.holds.rules_eq, List.map_map]
    rfl
  rw [← run_splitMoves strategy, splitMoves, hrules]
  exact hT.exists_join h hstart

theorem exists_course_empties {g : Grammar} (h : (⟨g, J, [], m⟩ : Standing).Stands rootLabel b)
    (hrule : ∃ r ∈ J, IsRuleNamed emptyRule r) (hR : ∀ i ∈ R, i ∈ idsAll J ∧ isEmptyGroup g i = true) (hn : R.Nodup) :
    ∃ J', Course strategy rootLabel b (R.map .empty) ⟨g, J, [], m⟩ ⟨run strategy (R.map .empty) g, J', [], m⟩ := by
  induction R generalizing g J with
  | nil => exact ⟨J, .nil _⟩
  | cons i R ih =>
    obtain ⟨hi, hn⟩ := List.nodup_cons.mp hn
    obtain ⟨hmem, he⟩ := hR i (List.mem_cons_self ..)
    obtain ⟨J₁, h₁, ha, hkeep⟩ := does_replaceEmpty_next h.holds (by simpa using h.sound) hrule hmem he
    have hS₁ := stands_of_advances h₁ ha h.sound
    have hm : Moved strategy rootLabel b (.empty i) ⟨g, J, [], m⟩ ⟨(replaceEmpty i g).2, J₁, [], m⟩ := by
      refine ⟨rfl, hS₁, [], ?_, .empty i⟩
      rw [Standing.heads, Standing.heads, List.append_nil, List.append_nil, List.append_nil, ha.heads]
    -- the groups were listed before the first of them was replaced
    have hR₁ : ∀ k ∈ R, k ∈ idsAll J₁ ∧ isEmptyGroup (replaceEmpty i g).2 k = true := fun k hk => by
      obtain ⟨hkm, hke⟩ := hR k (List.mem_cons_of_mem _ hk)
      exact hkeep k hkm hke fun hki => hi (hki ▸ hk)
    obtain ⟨J₂, h₂⟩ := ih hS₁ (exists_isRuleNamed_of_outlines ha.outlines hrule) hR₁ hn
    exact ⟨J₂, .cons hm h₂⟩

theorem exists_course_emptyMoves {g : Grammar} (h : (⟨g, J, [], m⟩ : Standing).Stands rootLabel b)
    (hstart : b.start.isSome = true) :
    ∃ J' m', Course strategy rootLabel b (emptyMoves g) ⟨g, J, [], m⟩ ⟨(replaceEmptyAll g).2, J', [], m'⟩ := by
  rw [← run_emptyMoves strategy]
  rw [emptyMoves]
  split
  · exact ⟨J, m, .nil _⟩
  · obtain ⟨rs, hm, hrule⟩ := moved_share strategy h hstart
    have hS : Stock.Sound ⟨J, m⟩ := by simpa using h.sound
    have hR := fun i hi => isEmptyGroup_of_mem_belowRules (i := i) h.holds hS hm.stands.holds hi
    obtain ⟨J', hJ'⟩ := exists_course_empties strategy hm.stands hrule hR (h.holds.nodup_belowRules _)
    exact ⟨J', m, .cons hm hJ'⟩

theorem exists_course_giveUps {g : Grammar} (h : (⟨g, J, W, m⟩ : Standing).Stands rootLabel b)
    (hR : Remaining τ R J g) : ∃ T, Course strategy rootLabel b (R.map (.giveUp τ)) ⟨g, J, W, m⟩ T := by
  induction R generalizing g J W m with
  | nil => exact ⟨_, .nil _⟩
  | cons i R ih =>
    have hdoes : Does (giveUpBelowRoot strategy τ i) g _ := does_giveUpBelowRoot h.holds h.sound hR
    obtain ⟨-, J₁, W₁, m₁, h₁, ha, hR₁⟩ := hdoes
    have hm : Moved strategy rootLabel b (.giveUp τ i) ⟨g, J, W, m⟩ ⟨(giveUpBelowRoot strategy τ i g).2, J₁, W₁, m₁⟩ :=
      moved_of_advances strategy rfl h₁ ha h.sound (.giveUp τ i)
    obtain ⟨T, hT⟩ := ih hm.stands hR₁
    exact ⟨T, .cons hm hT⟩

theorem exists_course_giveUpMoves {g : Grammar} (h : (⟨g, J, [], m⟩ : Standing).Stands rootLabel b)
    (hstart : b.start.isSome = true) (τ : Sugar) :
    ∃ J' m', Course strategy rootLabel b (giveUpMoves g τ) ⟨g, J, [], m⟩ ⟨(giveUpAll strategy τ g).2, J', [], m'⟩ := by
  have hS : Stock.Sound ⟨J, m⟩ := by simpa using h.sound
  obtain ⟨T, hT⟩ := exists_course_giveUps strategy h (remaining_belowRules h.holds hS τ)
  rw [← run_giveUpMoves, giveUpMoves]
  exact hT.exists_join h hstart

theorem exists_course_giveUpEachMoves {g : Grammar} (h : (⟨g, J, [], m⟩ : Standing).Stands rootLabel b)
    (hstart : b.start.isSome = true) (τs : List Sugar) :
    ∃ J' m', Course strategy rootLabel b (giveUpEachMoves strategy τs g) ⟨g, J, [], m⟩
      ⟨(giveUpEach strategy τs g).2, J', [], m'⟩ := by
  induction τs generalizing g J m with
  | nil => exact ⟨J, m, .nil _⟩
  | cons τ τs ih =>
    obtain ⟨J₁, m₁, h₁⟩ := exists_course_giveUpMoves strategy h hstart τ
    obtain ⟨J₂, m₂, h₂⟩ := ih (h₁.stands h)
    exact ⟨J₂, m₂, h₁.append h₂⟩

theorem exists_course_hoists {g : Grammar} (h : (⟨g, J, W, m⟩ : Standing).Stands rootLabel b)
    (hR : (inner (J ++ W)).Perm R) : ∃ T, Course strategy rootLabel b (R.map .hoist) ⟨g, J, W, m⟩ T := by
  induction R generalizing g J W m with
  | nil => exact ⟨_, .nil _⟩
  | cons i R ih =>
    obtain ⟨J₁, W₁, m₁, h₁, ha, hR₁⟩ := does_hoist_next h.holds h.sound hR
    have hm : Moved strategy rootLabel b (.hoist i) ⟨g, J, W, m⟩ ⟨(hoist i g).2, J₁, W₁, m₁⟩ :=
      moved_of_advances strategy rfl h₁ ha h.sound (.hoist i)
    obtain ⟨T, hT⟩ := ih hm.stands hR₁
    exact ⟨T, .cons hm hT⟩

theorem exists_course_hoistMoves {g : Grammar} (h : (⟨g, J, [], m⟩ : Standing).Stands rootLabel b)
    (hroot : rootLabel.kind ≠ .alt) (hstart : b.start.isSome = true) :
    ∃ J' m', Course strategy rootLabel b (hoistMoves g) ⟨g, J, [], m⟩ ⟨(hoistAll g).2, J', [], m'⟩ := by
  have hS : Stock.Sound ⟨J, m⟩ := by simpa using h.sound
  obtain ⟨T, hT⟩ := exists_course_hoists strategy h (perm_belowRules_isInnerGroup h.holds hroot hS)
  rw [← run_hoistMoves strategy, hoistMoves]
  exact hT.exists_join h hstart

theorem exists_course_passMoves {g : Grammar} (h : (⟨g, J, [], m⟩ : Standing).Stands rootLabel b)
    (hroot : rootLabel.kind ≠ .alt) (hstart : b.start.isSome = true) :
    ∃ J' m', Course strategy rootLabel b (passMoves strategy g) ⟨g, J, [], m⟩ ⟨(pass strategy g).2, J', [], m'⟩ := by
  -- no rule waits between two parts, since each ends in a join
  obtain ⟨J₁, m₁, h₁⟩ := exists_course_splitMoves strategy h hstart
  obtain ⟨J₂, m₂, h₂⟩ := exists_course_emptyMoves strategy (h₁.stands h) hstart
  have hS₂ := h₂.stands (h₁.stands h)
  obtain ⟨J₃, m₃, h₃⟩ := exists_course_giveUpEachMoves strategy hS₂ hstart (Sugar.order strategy)
  obtain ⟨J₄, m₄, h₄⟩ := exists_course_hoistMoves strategy (h₃.stands hS₂) hroot hstart
  exact ⟨J₄, m₄, (((h₁.append h₂).append h₃).append h₄).congr (run_passMoves strategy g)⟩

theorem exists_course_passesMoves {g : Grammar} (h : (⟨g, J, [], m⟩ : Standing).Stands rootLabel b)
    (hroot : rootLabel.kind ≠ .alt) (hstart : b.start.isSome = true) (fuel : Nat) :
    ∃ J' m', Course strategy rootLabel b (passesMoves strategy fuel g) ⟨g, J, [], m⟩
      ⟨(passes strategy fuel g).2, J', [], m'⟩ := by
  induction fuel generalizing g J m with
  | zero => exact ⟨J, m, .nil _⟩
  | succ fuel ih =>
    obtain ⟨J₁, m₁, h₁⟩ := exists_course_passMoves strategy h hroot hstart
    rw [passesMoves, passes_succ, StateT.run]
    split
    · obtain ⟨J₂, m₂, h₂⟩ := ih (h₁.stands h)
      exact ⟨J₂, m₂, h₁.append h₂⟩
    · exact ⟨J₁, m₁, by simpa using h₁⟩

/-- The moves of a simplification of a sound grammar lead from it to the simplified one. -/
theorem exists_course {g : Grammar} (h : Holds rootLabel b J [] g) (hroot : rootLabel.kind ≠ .alt)
    (hS : Stock.Sound ⟨J, b.madeUp⟩) (hstart : b.start.isSome = true) (strategy : Strategy) :
    ∃ J' m', Course strategy rootLabel b (moves strategy g) ⟨g, J, [], b.madeUp⟩
      ⟨(simplify strategy g).grammar, J', [], m'⟩ := by
  rw [grammar_simplify]
  exact exists_course_passesMoves strategy ⟨h, by simpa using hS⟩ hroot hstart _

end Ixml.Simplify
