import Ixml.Proofs.Ambiguity.RuleTrees
import Ixml.Proofs.Recogniser.Ways

/-!
# The lowest trees

A tree is lowest throughout if no nonterminal in it has a lower tree for the same text. These are the trees that a walk
can follow: those of a span are made up of a way and, for each part of it, of such a tree for that part
(`mem_lowestOver_iff`). There is always one (`nonempty_lowestOver`), and there are several just if there are several
ways or the parts of the only one have several trees (`nontrivial_lowestOver_iff`).
-/

namespace Ixml

open RuleTree (heightAll yieldAll)

namespace Bnf

mutual

/-- No nonterminal in the tree has a lower tree for the same text. -/
def IsLowest (B : Bnf) : RuleTree → Prop
  | .leaf _ => True
  | .node i ts =>
    (∀ r, B.rules[i]? = some r → ∀ t ∈ B.trees r.name, t.yield = yieldAll ts → heightAll ts + 1 ≤ t.height) ∧
      IsLowestAll B ts

def IsLowestAll (B : Bnf) : List RuleTree → Prop
  | [] => True
  | t :: ts => IsLowest B t ∧ IsLowestAll B ts

end

/-- The trees of a text that are lowest throughout. -/
def lowest (B : Bnf) (n : String) (w : List Char) : Set RuleTree :=
  {t ∈ B.trees n | t.yield = w ∧ B.IsLowest t}

variable {B : Bnf} {n : String} {w : List Char} {t : RuleTree} {k : Nat}

theorem height_eq_of_mem_lowest (ht : t ∈ B.lowest n w) (hk : IsLeast (B.heights n w) k) : t.height = k := by
  obtain ⟨⟨i, r, us, rfl, hr, rfl, hus⟩, rfl, hlow⟩ := ht
  refine Nat.le_antisymm ?_ (hk.2 (mem_heights_iff.mpr ⟨_, ⟨i, r, us, rfl, hr, rfl, hus⟩, rfl, rfl⟩))
  obtain ⟨u, hu, hy, rfl⟩ := mem_heights_iff.mp hk.1
  rw [IsLowest] at hlow
  exact hlow.1 r hr u hu hy

end Bnf

namespace Recognition

variable {r : Recognition} {p q j k bound i : Nat} {n : String} {ss : List Symbol} {parts : List Part}
  {ts us : List RuleTree} {t : RuleTree} {rule : Rule}

/-- The trees of a part of the input that are lowest throughout. -/
def lowestOver (r : Recognition) (n : String) (p q : Nat) : Set RuleTree :=
  r.grammar.lowest n (r.between p q)

/-- `r.Fills ss parts ts` says that `ts` are trees for the symbols `ss`, each over the part that its symbol stands for
and lowest throughout. -/
inductive Fills (r : Recognition) : List Symbol → List Part → List RuleTree → Prop
  | nil : Fills r [] [] []
  | matched {m : Matcher} {a : Attributes} {c : Char} {p : Nat} {ss : List Symbol} {parts : List Part}
    {ts : List RuleTree} (hp : r.input[p]? = some c) (hc : m.accepts c = true) (h : Fills r ss parts ts) :
    Fills r (.terminal m a :: ss) (.matched p :: parts) (.leaf c :: ts)
  | derived {n : String} {a : Attributes} {p q : Nat} {t : RuleTree} {ss : List Symbol} {parts : List Part}
    {ts : List RuleTree} (ht : t ∈ r.lowestOver n p q) (h : Fills r ss parts ts) :
    Fills r (.nonterminal n a :: ss) (.derived p q :: parts) (t :: ts)

namespace Fills

theorem builds (h : r.Fills ss parts ts) : r.grammar.Builds ss ts := by
  induction h with
  | nil => exact .nil
  | matched hp hc _ ih => exact .terminal hc ih
  | derived ht _ ih =>
    obtain ⟨⟨i, rule, us, rfl, hr, hn, hus⟩, -⟩ := ht
    exact .nonterminal hr hn hus ih

theorem isLowestAll (h : r.Fills ss parts ts) : r.grammar.IsLowestAll ts := by
  induction h with
  | nil => exact trivial
  | matched _ _ _ ih => exact ⟨trivial, ih⟩
  | derived ht _ ih => exact ⟨ht.2.2, ih⟩

end Fills

theorem Divides.last_le (hr : r.IsComplete) (h : r.Divides bound ss p q parts) (hp : p ≤ r.input.size) :
    q ≤ r.input.size := by
  induction h with
  | nil => exact hp
  | @matched m a c ss p q parts hat _ _ ih =>
    obtain ⟨hlt, -⟩ := Array.getElem?_eq_some_iff.mp hat
    exact ih hlt
  | derived hk _ _ ih => exact ih ((hr _ _ _ _).mp hk).2.1

theorem Divides.yieldAll_eq (hr : r.IsComplete) (h : r.Divides bound ss p q parts) (hf : r.Fills ss parts ts)
    (hp : p ≤ r.input.size) : yieldAll ts = r.between p q := by
  induction h generalizing ts with
  | nil =>
    cases hf
    rw [between, Nat.sub_self, List.take_zero, yieldAll]
  | @matched m a c ss p q parts hat _ h ih =>
    cases hf with
    | matched hat' _ hf =>
      obtain ⟨hlt, -⟩ := Array.getElem?_eq_some_iff.mp hat
      rw [hat] at hat'
      obtain rfl := Option.some.inj hat'
      rw [yieldAll, ih hf hlt]
      have hle := h.le hr
      have hq := h.last_le hr hlt
      exact (append_eq_between (by omega) hq).mpr
        ⟨p + 1, by omega, hle, (singleton_eq_between hlt).mpr ⟨rfl, hat⟩, rfl⟩
  | derived hk _ h ih =>
    cases hf with
    | derived ht hf =>
      obtain ⟨hpj, hj, -⟩ := (hr _ _ _ _).mp hk
      have hle := h.le hr
      rw [yieldAll, ih hf hj, ht.2.1]
      exact (append_eq_between (by omega) (h.last_le hr hj)).mpr ⟨_, hpj, hle, rfl, rfl⟩

/-- Trees that fill a division by spans lower than `bound` are lower than it. -/
theorem Divides.heightAll_lt (hr : r.IsComplete) (h : r.Divides bound ss p q parts) (hf : r.Fills ss parts ts)
    (hbound : 0 < bound) : heightAll ts < bound := by
  induction h generalizing ts with
  | nil =>
    cases hf
    exact hbound
  | matched _ _ _ ih =>
    cases hf with
    | matched _ _ hf =>
      rw [heightAll, RuleTree.height, Nat.zero_max]
      exact ih hf
  | derived hk hlt _ ih =>
    cases hf with
    | derived ht hf =>
      rw [heightAll, Nat.max_lt]
      exact ⟨by rwa [Bnf.height_eq_of_mem_lowest ht ((hr _ _ _ _).mp hk).2.2], ih hf⟩

theorem Divides.eq_of_fills (hr : r.IsComplete) {bound' q' : Nat} {parts' : List Part}
    (h : r.Divides bound ss p q parts) (hf : r.Fills ss parts ts) (h' : r.Divides bound' ss p q' parts')
    (hf' : r.Fills ss parts' ts) : parts = parts' := by
  induction h generalizing ts q' parts' with
  | nil =>
    cases h'
    rfl
  | matched _ _ _ ih =>
    cases hf with
    | matched _ _ hf =>
      cases h' with
      | matched _ _ h' =>
        cases hf' with
        | matched _ _ hf' => rw [ih hf h' hf']
  | @derived n a ss p j q k parts hk _ _ ih =>
    cases hf with
    | derived ht hf =>
      cases h' with
      | @derived _ _ _ _ j' _ _ _ hk' _ h' =>
        cases hf' with
        | derived ht' hf' =>
          obtain ⟨hpj, hj, -⟩ := (hr _ _ _ _).mp hk
          obtain ⟨hpj', hj', -⟩ := (hr _ _ _ _).mp hk'
          -- both parts are as long as the text of the tree
          have hlen := congrArg List.length (ht.2.1.symm.trans ht'.2.1)
          rw [length_between hj, length_between hj'] at hlen
          obtain rfl : j = j' := by omega
          rw [ih hf h' hf']

/-- Trees that are lowest throughout divide the text that they have. -/
theorem IsComplete.exists_fills (hr : r.IsComplete) (h : r.grammar.Builds ss ts) (hlow : r.grammar.IsLowestAll ts)
    (hy : yieldAll ts = r.between p q) (hpq : p ≤ q) (hq : q ≤ r.input.size) (hlt : heightAll ts < bound) :
    ∃ parts, r.Divides bound ss p q parts ∧ r.Fills ss parts ts := by
  induction h generalizing p with
  | nil =>
    have hlen := length_between (p := p) hq
    rw [← hy, yieldAll, List.length_nil] at hlen
    obtain rfl : p = q := by omega
    exact ⟨[], .nil, .nil⟩
  | @terminal m a c ss ts hc _ ih =>
    obtain ⟨j, hpj, hjq, hu, hv⟩ := (append_eq_between hpq hq).mp hy
    obtain ⟨rfl, hat⟩ := (singleton_eq_between (Nat.le_trans hjq hq)).mp hu
    rw [heightAll, Nat.max_lt] at hlt
    obtain ⟨parts, hparts, hf⟩ := ih hlow.2 hv hjq hlt.2
    exact ⟨_, .matched hat hc hparts, .matched hat hc hf⟩
  | @nonterminal n a i rule us ts ss hi hn hus _ _ ih =>
    obtain ⟨j, hpj, hjq, hu, hv⟩ := (append_eq_between hpq hq).mp hy
    have hj := Nat.le_trans hjq hq
    rw [heightAll, Nat.max_lt] at hlt
    obtain ⟨parts, hparts, hf⟩ := ih hlow.2 hv hjq hlt.2
    have ht : .node i us ∈ r.lowestOver n p j := ⟨⟨i, rule, us, rfl, hi, hn, hus⟩, hu, hlow.1⟩
    obtain ⟨k, hk⟩ := exists_isLeast ⟨_, Bnf.mem_heights_iff.mpr ⟨_, ht.1, hu, rfl⟩⟩
    rw [Bnf.height_eq_of_mem_lowest ht hk] at hlt
    exact ⟨_, .derived ((hr n p j k).mpr ⟨hpj, hj, hk⟩) hlt.1 hparts, .derived ht hf⟩

/-- The trees of a span that are lowest throughout are made up of a way and of such trees for its parts. -/
theorem IsComplete.mem_lowestOver_iff (hr : r.IsComplete) (hk : r.heights[(⟨n, p, q⟩ : Span)]? = some k) :
    t ∈ r.lowestOver n p q ↔ ∃ i rule us parts, t = .node i us ∧ r.grammar.rules[i]? = some rule ∧ rule.name = n ∧
      r.Divides k rule.rhs p q parts ∧ r.Fills rule.rhs parts us := by
  obtain ⟨hpq, hq, hleast⟩ := (hr n p q k).mp hk
  constructor
  · intro ht
    have hheight := Bnf.height_eq_of_mem_lowest ht hleast
    obtain ⟨⟨i, rule, us, rfl, hi, hn, hus⟩, hy, hlow⟩ := ht
    rw [Bnf.IsLowest] at hlow
    rw [RuleTree.height] at hheight
    have hlt : heightAll us < k := by omega
    obtain ⟨parts, hparts, hf⟩ := hr.exists_fills hus hlow.2 hy hpq hq hlt
    exact ⟨i, rule, us, parts, rfl, hi, hn, hparts, hf⟩
  · rintro ⟨i, rule, us, parts, rfl, hi, rfl, hparts, hf⟩
    have hy := hparts.yieldAll_eq hr hf (Nat.le_trans hpq hq)
    have hpos : 0 < k := by
      obtain ⟨ds, -, -, rfl⟩ := hleast.1
      exact Nat.succ_pos _
    refine ⟨⟨i, rule, us, rfl, hi, rfl, hf.builds⟩, hy, ?_⟩
    rw [Bnf.IsLowest]
    refine ⟨fun rule' hi' t ht hty => ?_, hf.isLowestAll⟩
    rw [hi] at hi'
    obtain rfl := Option.some.inj hi'
    have hle := hleast.2 (Bnf.mem_heights_iff.mpr ⟨t, ht, hty.trans hy, rfl⟩)
    have hlt := hparts.heightAll_lt hr hf hpos
    omega

/-! ### How many there are -/

theorem Divides.exists_fills (h : r.Divides bound ss p q parts)
    (hex : ∀ n p j k, r.heights[(⟨n, p, j⟩ : Span)]? = some k → k < bound → (r.lowestOver n p j).Nonempty) :
    ∃ ts, r.Fills ss parts ts := by
  induction h with
  | nil => exact ⟨[], .nil⟩
  | matched hp hc _ ih =>
    obtain ⟨ts, hts⟩ := ih
    exact ⟨_, .matched hp hc hts⟩
  | derived hk hlt _ ih =>
    obtain ⟨t, ht⟩ := hex _ _ _ _ hk hlt
    obtain ⟨ts, hts⟩ := ih
    exact ⟨_, .derived ht hts⟩

theorem IsComplete.nonempty_lowestOver (hr : r.IsComplete) (hk : r.heights[(⟨n, p, q⟩ : Span)]? = some k) :
    (r.lowestOver n p q).Nonempty := by
  induction k using Nat.strong_induction_on generalizing n p q with
  | _ k ih =>
    obtain ⟨way, hway⟩ := List.exists_mem_of_ne_nil _ (hr.ways_ne_nil hk)
    obtain ⟨hrule, hparts⟩ := divides_of_mem_ways hway
    obtain ⟨hmem, hn⟩ := List.mem_filter.mp hrule
    obtain ⟨i, hi⟩ := List.getElem?_of_mem hmem
    obtain ⟨ts, hts⟩ := hparts.exists_fills fun n p j l hl hlt => ih l hlt hl
    exact ⟨.node i ts, (hr.mem_lowestOver_iff hk).mpr ⟨i, _, ts, _, rfl, hi, by simpa using hn, hparts, hts⟩⟩

theorem IsComplete.fills_nonempty (hr : r.IsComplete) (h : r.Divides bound ss p q parts) :
    {ts | r.Fills ss parts ts}.Nonempty :=
  h.exists_fills fun _ _ _ _ hk _ => hr.nonempty_lowestOver hk

theorem nontrivial_image2_cons_iff {α : Type} {S : Set α} {T : Set (List α)} (hS : S.Nonempty) (hT : T.Nonempty) :
    (Set.image2 List.cons S T).Nontrivial ↔ S.Nontrivial ∨ T.Nontrivial := by
  constructor
  · rintro ⟨_, ⟨x, hx, xs, hxs, rfl⟩, _, ⟨y, hy, ys, hys, rfl⟩, hne⟩
    by_cases hxy : x = y
    · exact Or.inr ⟨xs, hxs, ys, hys, fun h => hne (by rw [hxy, h])⟩
    · exact Or.inl ⟨x, hx, y, hy, hxy⟩
  · obtain ⟨z, hz⟩ := hS
    obtain ⟨zs, hzs⟩ := hT
    rintro (⟨x, hx, y, hy, hne⟩ | ⟨xs, hxs, ys, hys, hne⟩)
    · exact ⟨x :: zs, ⟨x, hx, zs, hzs, rfl⟩, y :: zs, ⟨y, hy, zs, hzs, rfl⟩, fun h => hne (List.cons.inj h).1⟩
    · exact ⟨z :: xs, ⟨z, hz, xs, hxs, rfl⟩, z :: ys, ⟨z, hz, ys, hys, rfl⟩, fun h => hne (List.cons.inj h).2⟩

/-- Only the rest after a terminal leaves room for different trees. -/
theorem nontrivial_fills_matched_iff {m : Matcher} {a : Attributes} {c : Char} (hp : r.input[p]? = some c)
    (hc : m.accepts c = true) : {ts | r.Fills (.terminal m a :: ss) (.matched p :: parts) ts}.Nontrivial ↔
      {ts | r.Fills ss parts ts}.Nontrivial := by
  have himage : {ts | r.Fills (.terminal m a :: ss) (.matched p :: parts) ts} =
      (RuleTree.leaf c :: ·) '' {ts | r.Fills ss parts ts} := by
    ext ts
    constructor
    · rintro (_ | ⟨hp', _, h⟩)
      rw [hp] at hp'
      obtain rfl := Option.some.inj hp'
      exact ⟨_, h, rfl⟩
    · rintro ⟨ts, h, rfl⟩
      exact .matched hp hc h
  rw [himage, Set.image_nontrivial fun _ _ h => (List.cons.inj h).2]

theorem nontrivial_fills_derived_iff {a : Attributes} (hfirst : (r.lowestOver n p j).Nonempty)
    (hrest : {ts | r.Fills ss parts ts}.Nonempty) :
    {ts | r.Fills (.nonterminal n a :: ss) (.derived p j :: parts) ts}.Nontrivial ↔
      (r.lowestOver n p j).Nontrivial ∨ {ts | r.Fills ss parts ts}.Nontrivial := by
  have himage : {ts | r.Fills (.nonterminal n a :: ss) (.derived p j :: parts) ts} =
      Set.image2 List.cons (r.lowestOver n p j) {ts | r.Fills ss parts ts} := by
    ext ts
    constructor
    · rintro (_ | _ | ⟨ht, h⟩)
      exact ⟨_, ht, _, h, rfl⟩
    · rintro ⟨t, ht, ts, h, rfl⟩
      exact .derived ht h
  rw [himage, nontrivial_image2_cons_iff hfirst hrest]

/-- Whichever way is taken, there are several trees just if there are several ways or this one is filled by several. -/
theorem IsComplete.nontrivial_lowestOver_iff (hr : r.IsComplete) (hk : r.heights[(⟨n, p, q⟩ : Span)]? = some k)
    (hi : r.grammar.rules[i]? = some rule) (hn : rule.name = n) (hparts : r.Divides k rule.rhs p q parts) :
    (r.lowestOver n p q).Nontrivial ↔
      {way | r.HasWay k ⟨n, p, q⟩ way}.Nontrivial ∨ {us | r.Fills rule.rhs parts us}.Nontrivial := by
  constructor
  · rintro ⟨t, ht, t', ht', hne⟩
    obtain ⟨i₁, rule₁, us, parts₁, rfl, hi₁, hn₁, hp₁, hf₁⟩ := (hr.mem_lowestOver_iff hk).mp ht
    obtain ⟨i₂, rule₂, us', parts₂, rfl, hi₂, hn₂, hp₂, hf₂⟩ := (hr.mem_lowestOver_iff hk).mp ht'
    by_cases h₁ : (i₁, parts₁) = (i, parts)
    · by_cases h₂ : (i₂, parts₂) = (i, parts)
      · obtain ⟨rfl, rfl⟩ := Prod.mk.inj h₁
        obtain ⟨rfl, rfl⟩ := Prod.mk.inj h₂
        rw [hi] at hi₁ hi₂
        obtain rfl := Option.some.inj hi₁
        obtain rfl := Option.some.inj hi₂
        exact Or.inr ⟨us, hf₁, us', hf₂, fun h => hne (by rw [h])⟩
      · exact Or.inl ⟨_, ⟨rule₂, hi₂, hn₂, hp₂⟩, _, ⟨rule, hi, hn, hparts⟩, h₂⟩
    · exact Or.inl ⟨_, ⟨rule₁, hi₁, hn₁, hp₁⟩, _, ⟨rule, hi, hn, hparts⟩, h₁⟩
  · rintro (⟨⟨i₁, parts₁⟩, ⟨rule₁, hi₁, hn₁, hp₁⟩, ⟨i₂, parts₂⟩, ⟨rule₂, hi₂, hn₂, hp₂⟩, hne⟩ | ⟨us, hf, us', hf', hne⟩)
    · obtain ⟨us, hf₁⟩ := hr.fills_nonempty hp₁
      obtain ⟨us', hf₂⟩ := hr.fills_nonempty hp₂
      refine ⟨_, (hr.mem_lowestOver_iff hk).mpr ⟨i₁, rule₁, us, parts₁, rfl, hi₁, hn₁, hp₁, hf₁⟩,
        _, (hr.mem_lowestOver_iff hk).mpr ⟨i₂, rule₂, us', parts₂, rfl, hi₂, hn₂, hp₂, hf₂⟩, fun h => hne ?_⟩
      obtain ⟨rfl, rfl⟩ := RuleTree.node.inj h
      simp only at hi₁ hi₂
      rw [hi₁] at hi₂
      obtain rfl := Option.some.inj hi₂
      exact congrArg (Prod.mk i₁) (hp₁.eq_of_fills hr hf₁ hp₂ hf₂)
    · exact ⟨_, (hr.mem_lowestOver_iff hk).mpr ⟨i, rule, us, parts, rfl, hi, hn, hparts, hf⟩,
        _, (hr.mem_lowestOver_iff hk).mpr ⟨i, rule, us', parts, rfl, hi, hn, hparts, hf'⟩,
        fun h => hne (RuleTree.node.inj h).2⟩

end Recognition

end Ixml
