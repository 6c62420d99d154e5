import Ixml.Proofs.Simplify.Moves

/-!
# Who is born in a simplification

Each rule of a simplified grammar was there before, or a move added it (`births`). The moves that split a rule pass
its name on. All others make up a name that no rule has borne before (`Born.nodup`): the numbers in their names are
counted up (`Born.numbers`). So rules of one name come from one rule by splitting (`Born.exists_origin`).
-/

namespace Ixml.Simplify

open Layout

/-! ### Numbers in names -/

/-- The number in a made-up name: the digits between its last two underscores. -/
def number? (name : String) : Option Nat :=
  match name.toList.head?, name.toList.reverse.splitOn '_' with
  | some '$', _ :: digits :: _ :: _ =>
    if digits ≠ [] ∧ digits.all (·.isDigit) then some (Nat.ofDigitChars 10 digits.reverse 0) else none
  | _, _ => none

theorem splitOn_append_cons {c : Char} {xs : List Char} (h : c ∉ xs) (ys : List Char) :
    (xs ++ c :: ys).splitOn c = xs :: ys.splitOn c := by
  refine List.splitOnP_append_cons_of_forall_mem (p := (· == c)) (fun x hx => ?_) c (beq_self_eq_true c) ys
  rw [beq_eq_false_iff_ne]
  rintro rfl
  exact h hx

theorem Numbered.number?_eq {name : String} {n : Nat} (h : Numbered name n) : number? name = some n := by
  obtain ⟨hint, word, -, ⟨hword, -⟩, rfl⟩ := h
  have hlist : ("$" ++ hint ++ "_" ++ toString n ++ "_" ++ word).toList.reverse =
      word.toList.reverse ++ '_' :: ((toString n).toList.reverse ++ '_' :: (hint.toList.reverse ++ ['$'])) := by
    simp [String.toList_append]
  obtain ⟨p, ps, hp⟩ := List.exists_cons_of_ne_nil (List.splitOnP_ne_nil (· == '_') (hint.toList.reverse ++ ['$']))
  have hhead : ("$" ++ hint ++ "_" ++ toString n ++ "_" ++ word).toList.head? = some '$' := by
    simp [String.toList_append]
  rw [number?, hhead, hlist, splitOn_append_cons (by simpa using hword), splitOn_append_cons (by simp),
    List.splitOn, hp]
  have hrepr : (toString n).toList = Nat.toDigits 10 n := Nat.toList_repr
  have hall : ∀ c ∈ Nat.toDigits 10 n, c.isDigit = true := fun c =>
    Nat.isDigit_of_mem_toDigits (by decide) (by decide)
  rw [hrepr]
  refine (if_pos ⟨by simp, by simpa using hall⟩).trans ?_
  rw [List.reverse_reverse, Nat.ofDigitChars_toDigits (by decide) (by decide)]

theorem number?_of_not_isMade {name : String} (h : ¬IsMade name) : number? name = none := by
  rw [number?]
  split
  · rename_i hhead _
    exact absurd hhead h
  · rfl

theorem number?_emptyRule : number? emptyRule = none := by
  decide +kernel

/-! ### What is added -/

/-- The rules and prologs of a grammar, those that wait last. -/
def members (g : Grammar) : List NodeId :=
  g.children Grammar.root ++ g.waiting

/-- What moves add to a grammar, each with the move that adds it. -/
def births (strategy : Strategy) : List Move → Grammar → List (Move × NodeId)
  | [], _ => []
  | mv :: ms, g =>
    ((members (mv.make strategy g)).drop (members g).length).map (mv, ·) ++ births strategy ms (mv.make strategy g)

/-- Whether a move gives up a construct or a group for a reference to a rule of its own. -/
def Move.rewrites : Move → Bool
  | giveUp .. => true
  | hoist _ => true
  | _ => false

/-- Whether a move splits a rule. -/
def Move.isSplit : Move → Bool
  | split _ => true
  | _ => false

/-- A rule is another, or was split off it, or off one that was split off it. -/
def SplitFrom (bs : List (Move × NodeId)) (o r : NodeId) : Prop :=
  Relation.ReflTransGen (fun p q => (Move.split p, q) ∈ bs) o r

/-- `Born H m B m'` says which tops `B` the moves add to the tops `H`, when `m` names have been made up before them and
`m'` after them. -/
inductive Born : List (NodeId × Label) → Nat → List (Move × NodeId × Label) → Nat → Prop
  | nil (H : List (NodeId × Label)) (m : Nat) : Born H m [] m
  | cons {H new : List (NodeId × Label)} {m m' m'' : Nat} {mv : Move} {B : List (Move × NodeId × Label)}
    (h : Adds H m mv new m') (hB : Born (H ++ new) m' B m'') : Born H m (new.map (mv, ·) ++ B) m''

/-- A top that was there before, or that a move added which splits no rule. -/
def IsOrigin (H : List (NodeId × Label)) (B : List (Move × NodeId × Label)) (o : NodeId × Label) : Prop :=
  o ∈ H ∨ ∃ mv, (mv, o) ∈ B ∧ mv.isSplit = false

variable {strategy : Strategy} {rootLabel : Label} {b : Grammar} {S T : Standing} {ms : List Move} {mv : Move}
  {H new : List (NodeId × Label)} {B : List (Move × NodeId × Label)} {m m' : Nat}

theorem Standing.Stands.members_eq (h : S.Stands rootLabel b) : members S.grammar = S.heads.map Prod.fst := by
  rw [members, h.holds.children_root, h.holds.waiting_eq, Standing.heads, List.map_map, List.map_append]
  rfl

/-- The births of a course are those that the moves are said to add. -/
theorem Course.exists_births (h : Course strategy rootLabel b ms S T) (hS : S.Stands rootLabel b) :
    ∃ B, T.heads = S.heads ++ B.map Prod.snd ∧ births strategy ms S.grammar = B.map (fun x => (x.1, x.2.1)) ∧
      Born S.heads S.madeUp B T.madeUp := by
  induction h with
  | nil S => exact ⟨[], by simp, rfl, .nil _ _⟩
  | @cons mv ms S T U h _ ih =>
    obtain ⟨new, hnew, hadds⟩ := h.adds
    obtain ⟨B, hB, hbirths, hborn⟩ := ih h.stands
    rw [hnew] at hborn
    refine ⟨new.map (mv, ·) ++ B, ?_, ?_, .cons hadds hborn⟩
    · rw [hB, hnew, List.map_append, List.map_map, List.append_assoc]
      congr 2
      simp [Function.comp_def]
    · rw [births, ← h.make, h.stands.members_eq, hS.members_eq, hbirths, hnew]
      simp [Function.comp_def]

/-! ### Names -/

theorem MadeInTurn.exists_numbers (h : MadeInTurn m new m') :
    ∃ k, m' = m + k ∧ new.map (fun n => number? n.2.nameText) = (List.range' (m + 1) k).map some := by
  induction h with
  | nil => exact ⟨0, rfl, rfl⟩
  | @cons m m' h hs hr hn _ ih =>
    obtain ⟨k, rfl, hk⟩ := ih
    refine ⟨k + 1, by omega, ?_⟩
    rw [List.map_cons, hn.number?_eq, hk, List.range'_succ, List.map_cons]

theorem MadeInTurn.isRule (h : MadeInTurn m new m') : ∀ n ∈ new, n.2.kind.isRule = true := by
  induction h with
  | nil => exact List.forall_mem_nil _
  | cons hr _ _ ih => exact List.forall_mem_cons.mpr ⟨hr, ih⟩

theorem MadeInTurn.exists_numbered (h : MadeInTurn m new m') :
    m ≤ m' ∧ ∀ n ∈ new, ∃ k, m < k ∧ k ≤ m' ∧ Numbered n.2.nameText k := by
  induction h with
  | nil => exact ⟨Nat.le_refl _, List.forall_mem_nil _⟩
  | @cons m m' h hs hr hn _ ih =>
    obtain ⟨hm, ih⟩ := ih
    refine ⟨by omega, List.forall_mem_cons.mpr ⟨⟨m + 1, by omega, hm, hn⟩, fun n hmem => ?_⟩⟩
    obtain ⟨k, hk, hle, hnum⟩ := ih n hmem
    exact ⟨k, by omega, hle, hnum⟩

theorem MadeInTurn.nodup (h : MadeInTurn m new m') : (new.map (·.2.nameText)).Nodup := by
  obtain ⟨k, -, hk⟩ := h.exists_numbers
  refine List.Nodup.of_map number? ?_
  rw [List.map_map]
  exact hk ▸ (List.nodup_range' 1).map fun _ _ => Option.some.inj

theorem Adds.isRule (h : Adds H m mv new m') : ∀ n ∈ new, n.2.kind.isRule = true := by
  cases h with
  | split hh hr hnew => exact fun n hn => (hnew n hn).1 ▸ hr
  | share hr => simpa using hr
  | giveUp _ _ h => exact h.isRule
  | hoist _ h => exact h.isRule
  | shared | empty | join => exact List.forall_mem_nil _

/-- No rule has a name with a number that comes after `m`. -/
def Old (m : Nat) (H : List (NodeId × Label)) : Prop :=
  ∀ h ∈ H, h.2.kind.isRule = true → ∀ n, Numbered h.2.nameText n → n ≤ m

namespace Adds

theorem le (h : Adds H m mv new m') : m ≤ m' := by
  cases h with
  | giveUp _ _ h => exact h.exists_numbered.1
  | hoist _ h => exact h.exists_numbered.1
  | split | shared | share | empty | join => exact Nat.le_refl _

/-- The name of a rule that is not split off another is new. -/
theorem founds (h : Adds H m mv new m') (hH : Old m H) (hmv : mv.isSplit = false) :
    (new.map (·.2.nameText)).Nodup ∧
      ∀ n ∈ new, ∀ h ∈ H, h.2.kind.isRule = true → h.2.nameText ≠ n.2.nameText := by
  have hturn (h : MadeInTurn m new m') : ∀ n ∈ new, ∀ h ∈ H, h.2.kind.isRule = true → h.2.nameText ≠ n.2.nameText := by
    intro n hn x hx hr he
    obtain ⟨k, hk, -, hnum⟩ := h.exists_numbered.2 n hn
    exact absurd (hH x hx hr k (he ▸ hnum)) (Nat.not_le_of_lt hk)
  cases h with
  | split => cases hmv
  | share hr hn hnone => exact ⟨List.nodup_singleton _, by simpa [hn] using hnone⟩
  | giveUp _ _ h => exact ⟨h.nodup, hturn h⟩
  | hoist _ h => exact ⟨h.nodup, hturn h⟩
  | shared | empty | join => exact ⟨List.nodup_nil, List.forall_mem_nil _⟩

theorem old (h : Adds H m mv new m') (hH : Old m H) : Old m' (H ++ new) := by
  have hle := h.le
  refine List.forall_mem_append.mpr ⟨fun x hx hr n hn => Nat.le_trans (hH x hx hr n hn) hle, fun x hx hr n hn => ?_⟩
  have hturn (h : MadeInTurn m new m') : n ≤ m' := by
    obtain ⟨k, -, hk, hnum⟩ := h.exists_numbered.2 x hx
    exact hn.unique hnum ▸ hk
  cases h with
  | @split h _ hh hr' hnew => exact hH h hh hr' n ((hnew x hx).2 ▸ hn)
  | share _ he =>
    rw [List.mem_singleton.mp hx] at hn
    exact absurd he hn.ne_emptyRule
  | giveUp _ _ h => exact hturn h
  | hoist _ h => exact hturn h
  | shared | empty | join => cases hx

end Adds

namespace Born

theorem isRule (h : Born H m B m') : ∀ x ∈ B, x.2.2.kind.isRule = true := by
  induction h with
  | nil => exact List.forall_mem_nil _
  | cons h _ ih =>
    refine List.forall_mem_append.mpr ⟨fun x hx => ?_, ih⟩
    obtain ⟨n, hn, rfl⟩ := List.mem_map.mp hx
    exact h.isRule n hn

theorem le (h : Born H m B m') : m ≤ m' := by
  induction h with
  | nil => exact Nat.le_refl _
  | cons h _ ih => exact Nat.le_trans h.le ih

theorem numbers (h : Born H m B m') : ∃ k, m' = m + k ∧
    (B.filter (·.1.rewrites)).map (fun x => number? x.2.2.nameText) = (List.range' (m + 1) k).map some := by
  induction h with
  | nil => exact ⟨0, rfl, rfl⟩
  | @cons H new m m' m'' mv B h _ ih =>
    obtain ⟨k, rfl, hk⟩ := ih
    have hturn : mv.rewrites = true ∧ MadeInTurn m new m' ∨ mv.rewrites = false ∧ m' = m := by
      cases h with
      | giveUp _ _ h => exact .inl ⟨rfl, h⟩
      | hoist _ h => exact .inl ⟨rfl, h⟩
      | split | shared | share | empty | join => exact .inr ⟨rfl, rfl⟩
    rcases hturn with ⟨hmv, hturn⟩ | ⟨hmv, rfl⟩
    · -- the other moves count on from where the first one stops
      obtain ⟨k', rfl, hk'⟩ := hturn.exists_numbers
      refine ⟨k' + k, by omega, ?_⟩
      rw [List.filter_append, List.map_append, hk, List.filter_map, List.filter_eq_self.mpr (by simp [hmv]),
        List.map_map, show m + k' + 1 = m + 1 + 1 * k' by omega, ← List.range'_append, List.map_append, ← hk']
      rfl
    · refine ⟨k, rfl, ?_⟩
      rw [List.filter_append, List.filter_map, List.filter_eq_nil_iff.mpr (by simp [hmv])]
      exact hk

theorem nodup (h : Born H m B m') (hH : Old m H) :
    ((B.filter (!·.1.isSplit)).map (·.2.2.nameText)).Nodup ∧
      ∀ x ∈ B, x.1.isSplit = false → ∀ h ∈ H, h.2.kind.isRule = true → h.2.nameText ≠ x.2.2.nameText := by
  -- for the moves after the first, what it adds is among the rules that were there before
  induction h with
  | nil => exact ⟨List.nodup_nil, List.forall_mem_nil _⟩
  | @cons H new m m' m'' mv B h _ ih =>
    obtain ⟨hnodup, hne⟩ := ih (h.old hH)
    refine ⟨?_, List.forall_mem_append.mpr ⟨fun x hx hmv => ?_, fun x hx hmv u hu => ?_⟩⟩
    · rw [List.filter_append, List.filter_map, List.map_append]
      cases hmv : mv.isSplit with
      | true =>
        rw [List.filter_eq_nil_iff.mpr (by simp [hmv])]
        exact hnodup
      | false =>
        rw [List.filter_eq_self.mpr (by simp [hmv]), List.map_map]
        refine (h.founds hH hmv).1.append hnodup fun name hn hB => ?_
        obtain ⟨n, hmem, rfl⟩ := List.mem_map.mp hn
        obtain ⟨x, hx, he⟩ := List.mem_map.mp hB
        obtain ⟨hx, hsplit⟩ := List.mem_filter.mp hx
        exact hne x hx (by simpa using hsplit) n (List.mem_append_right _ hmem) (h.isRule n hmem) he.symm
    · obtain ⟨n, hn, rfl⟩ := List.mem_map.mp hx
      exact (h.founds hH hmv).2 n hn
    · exact hne x hx hmv u (List.mem_append_left _ hu)

theorem made (h : Born H m B m') : ∀ x ∈ B, x.1.isSplit = false → x.2.2.nameText = emptyRule ∨
    x.1.rewrites = true ∧ ∃ n, m < n ∧ n ≤ m' ∧ Numbered x.2.2.nameText n := by
  induction h with
  | nil => exact List.forall_mem_nil _
  | @cons H new m m' m'' mv B h hB ih =>
    have hle := h.le
    have hle' := hB.le
    refine List.forall_mem_append.mpr ⟨fun x hx hmv => ?_, fun x hx hmv => ?_⟩
    · obtain ⟨n, hn, rfl⟩ := List.mem_map.mp hx
      have hturn (h : MadeInTurn m new m') : ∃ k, m < k ∧ k ≤ m'' ∧ Numbered n.2.nameText k := by
        obtain ⟨k, hk, hk', hnum⟩ := h.exists_numbered.2 n hn
        exact ⟨k, hk, Nat.le_trans hk' hle', hnum⟩
      cases h with
      | split => cases hmv
      | share hr he => exact .inl (List.mem_singleton.mp hn ▸ he)
      | giveUp _ _ h => exact .inr ⟨rfl, hturn h⟩
      | hoist _ h => exact .inr ⟨rfl, hturn h⟩
      | shared | empty | join => cases hn
    · refine (ih x hx hmv).imp_right fun ⟨hr, n, hn, hn', hnum⟩ => ⟨hr, n, Nat.lt_of_le_of_lt hle hn, hn', hnum⟩

/-- Where a rule comes from: one of the same name that was there before or is not split off another. -/
theorem exists_origin (h : Born H m B m') : ∀ x ∈ H ++ B.map Prod.snd, x.2.kind.isRule = true →
    ∃ o, IsOrigin H B o ∧ o.2.kind.isRule = true ∧ o.2.nameText = x.2.nameText ∧
      SplitFrom (B.map fun y => (y.1, y.2.1)) o.1 x.1 := by
  induction h with
  | nil => exact fun x hx hr => ⟨x, .inl (by simpa using hx), hr, rfl, .refl⟩
  | @cons H new m m' m'' mv B h _ ih =>
    intro x hx hr
    have hx' : x ∈ (H ++ new) ++ B.map Prod.snd := by simpa [Function.comp_def] using hx
    obtain ⟨o, ho, hor, hname, hsplit⟩ := ih x hx' hr
    have hsub {p q : NodeId} (hpq : (Move.split p, q) ∈ B.map fun y => (y.1, y.2.1)) :
        (Move.split p, q) ∈ (new.map (mv, ·) ++ B).map fun y => (y.1, y.2.1) := by
      rw [List.map_append]
      exact List.mem_append_right _ hpq
    have hfrom : SplitFrom ((new.map (mv, ·) ++ B).map fun y => (y.1, y.2.1)) o.1 x.1 :=
      Relation.ReflTransGen.mono (fun _ _ => hsub) _ _ hsplit
    rcases ho with ho | ⟨mv', ho, hmv'⟩
    · rcases List.mem_append.mp ho with ho | ho
      · exact ⟨o, .inl ho, hor, hname, hfrom⟩
      · -- what is added is split off a rule that was there, or else it is an origin itself
        have hborn : (mv, o) ∈ new.map (mv, ·) ++ B := List.mem_append_left _ (List.mem_map_of_mem ho)
        cases h with
        | @split p _ hp hpr hnew =>
          obtain ⟨-, ho⟩ := hnew o ho
          refine ⟨p, .inl hp, hpr, ho ▸ hname, hfrom.head ?_⟩
          exact List.mem_map.mpr ⟨_, hborn, rfl⟩
        | share => exact ⟨o, .inr ⟨_, hborn, rfl⟩, hor, hname, hfrom⟩
        | giveUp => exact ⟨o, .inr ⟨_, hborn, rfl⟩, hor, hname, hfrom⟩
        | hoist => exact ⟨o, .inr ⟨_, hborn, rfl⟩, hor, hname, hfrom⟩
        | shared | empty | join => cases ho
    · exact ⟨o, .inr ⟨mv', List.mem_append_right _ ho, hmv'⟩, hor, hname, hfrom⟩

/-- Origins have different names, if the rules that were there before have. -/
theorem origin_unique (h : Born H m B m') (hH : Old m H)
    (hn : ((H.filter (·.2.kind.isRule)).map (·.2.nameText)).Nodup) {o o' : NodeId × Label} (ho : IsOrigin H B o)
    (ho' : IsOrigin H B o') (hr : o.2.kind.isRule = true) (hr' : o'.2.kind.isRule = true)
    (hname : o.2.nameText = o'.2.nameText) : o = o' := by
  obtain ⟨hnodup, hne⟩ := h.nodup hH
  rcases ho with ho | ⟨mv, ho, hmv⟩ <;> rcases ho' with ho' | ⟨mv', ho', hmv'⟩
  · exact List.inj_on_of_nodup_map hn (List.mem_filter.mpr ⟨ho, hr⟩) (List.mem_filter.mpr ⟨ho', hr'⟩) hname
  · exact absurd hname (hne _ ho' hmv' o ho hr)
  · exact absurd hname.symm (hne _ ho hmv o' ho' hr')
  · have hmem {mv : Move} {o : NodeId × Label} (ho : (mv, o) ∈ B) (hmv : mv.isSplit = false) :
        (mv, o) ∈ B.filter (!·.1.isSplit) := List.mem_filter.mpr ⟨ho, by simp [hmv]⟩
    have he := List.inj_on_of_nodup_map hnodup (hmem ho hmv) (hmem ho' hmv') hname
    exact congrArg Prod.snd he

end Born

end Ixml.Simplify
