import Mathlib.Data.Set.Subsingleton
import Ixml.Proofs.Recogniser.Divisions

/-!
# How many ways there are

The divisions that are found are the first of all divisions (`divisions_eq_take`), each of which occurs once
(`nodup_allDivisions`). The limit is large enough for two, so that a span has more than one way just if it can be
divided differently, or by another rule (`one_lt_length_ways_iff`). Rules are told apart by their positions.
-/

namespace Ixml.Recognition

variable {r : Recognition} {p q bound limit last : Nat} {n : String} {ss : List Symbol} {parts : List Part}
  {f : Nat → Nat → List (List Part)} {F : Nat → List (List Part)}

/-! ### All divisions -/

/-- Where the first part can end that a name is to derive. -/
def firstEnds (r : Recognition) (bound last : Nat) (name : String) (p : Nat) : List Nat :=
  r.places.filter fun q => p ≤ q && q ≤ last && r.heights.below bound ⟨name, p, q⟩

/-- The divisions without a limit. -/
def allDivisions (r : Recognition) (bound last : Nat) : List Symbol → Nat → List (List Part)
  | [], p => if p = last then [[]] else []
  | .nonterminal name _ :: rest, p =>
    (r.firstEnds bound last name p).flatMap fun q => withPart (.derived p q) (allDivisions r bound last rest q)
  | .terminal m a :: rest, p =>
    if p < last && r.acceptsAt (.terminal m a) p then withPart (.matched p) (allDivisions r bound last rest (p + 1))
    else []

theorem collect_eq_take (h : ∀ limit q, f limit q = (F q).take limit) (limit : Nat) (qs : List Nat) :
    collect f limit qs = (qs.flatMap F).take limit := by
  induction qs generalizing limit with
  | nil => rw [collect, List.flatMap_nil, List.take_nil]
  | cons q qs ih =>
    rw [collect, List.flatMap_cons, List.take_append]
    split
    · next h0 => rw [h0, List.take_zero, Nat.zero_sub, List.take_zero, List.append_nil]
    · dsimp only
      rw [h, ih, List.length_take]
      -- what is still wanted is the same whether or not some were left out
      rw [show limit - min limit (F q).length = limit - (F q).length by omega]

theorem divisions_eq_take : r.divisions bound last ss limit p = (r.allDivisions bound last ss p).take limit := by
  induction ss generalizing limit p with
  | nil =>
    rw [divisions, allDivisions]
    cases limit with
    | zero => rfl
    | succ limit =>
      rw [if_neg (Nat.succ_ne_zero _)]
      split
      · rw [List.take_succ_cons, List.take_nil]
      · rfl
  | cons s ss ih =>
    cases s with
    | nonterminal name a =>
      rw [divisions, allDivisions]
      refine collect_eq_take (fun limit q => ?_) limit _
      rw [ih, withPart, withPart, List.map_take]
    | terminal m a =>
      rw [divisions, allDivisions]
      · split
        · rw [ih, withPart, withPart, List.map_take]
        · rw [List.take_nil]
      · intro _ _ h
        cases h

theorem nodup_withPart {part : Part} {ways : List (List Part)} : (withPart part ways).Nodup ↔ ways.Nodup :=
  List.nodup_map_iff fun _ _ h => (List.cons.inj h).2

theorem nodup_allDivisions : (r.allDivisions bound last ss p).Nodup := by
  induction ss generalizing p with
  | nil =>
    rw [allDivisions]
    split <;> simp
  | cons s ss ih =>
    cases s with
    | nonterminal name a =>
      rw [allDivisions]
      have hnodup : (r.firstEnds bound last name p).Nodup := List.nodup_range.filter _
      refine List.nodup_flatMap.mpr ⟨fun q _ => nodup_withPart.mpr ih, hnodup.imp fun {q q'} hne parts hq hq' => ?_⟩
      -- divisions with different first parts
      obtain ⟨_, -, rfl⟩ := List.mem_map.mp hq
      obtain ⟨_, -, he⟩ := List.mem_map.mp hq'
      exact hne (by simpa using (List.cons.inj he).1.symm)
    | terminal m a =>
      rw [allDivisions]
      split
      · exact nodup_withPart.mpr ih
      · exact List.nodup_nil

theorem divides_of_mem_allDivisions (h : parts ∈ r.allDivisions bound last ss p) : r.Divides bound ss p last parts := by
  rw [← List.take_length (l := r.allDivisions bound last ss p), ← divisions_eq_take] at h
  exact divides_of_mem_divisions h

theorem IsComplete.mem_allDivisions_iff (hr : r.IsComplete) :
    parts ∈ r.allDivisions bound last ss p ↔ r.Divides bound ss p last parts := by
  refine ⟨divides_of_mem_allDivisions, fun h => ?_⟩
  induction h with
  | nil => simp [allDivisions]
  | matched hp hc h ih =>
    have hle := h.le hr
    rw [allDivisions, if_pos]
    · exact List.mem_map_of_mem ih
    · rw [Bool.and_eq_true, decide_eq_true_eq]
      exact ⟨by omega, acceptsAt_terminal.mpr ⟨_, hp, hc⟩⟩
  | @derived n a ss p j q k parts hk hlt h ih =>
    have hjq := h.le hr
    obtain ⟨hpj, hj, -⟩ := (hr _ _ _ _).mp hk
    rw [allDivisions]
    refine List.mem_flatMap.mpr ⟨j, List.mem_filter.mpr ⟨List.mem_range.mpr (Nat.lt_succ_of_le hj), ?_⟩,
      List.mem_map_of_mem ih⟩
    simp only [Bool.and_eq_true, decide_eq_true_eq]
    exact ⟨⟨hpj, hjq⟩, below_iff.mpr ⟨k, hk, hlt⟩⟩

/-! ### All ways -/

/-- A way to derive a span from spans lower than `bound`: the position of a rule, and a division by it. -/
def HasWay (r : Recognition) (bound : Nat) (s : Span) (way : Nat × List Part) : Prop :=
  ∃ rule, r.grammar.rules[way.1]? = some rule ∧ rule.name = s.name ∧
    r.Divides bound rule.rhs s.first s.last way.2

def allWays (r : Recognition) (bound : Nat) (s : Span) : List (Nat × List Part) :=
  (r.grammar.rules.zipIdx.filter (·.1.name == s.name)).flatMap fun x =>
    (r.allDivisions bound s.last x.1.rhs s.first).map (x.2, ·)

variable {span : Span} {way : Nat × List Part}

theorem IsComplete.mem_allWays_iff (hr : r.IsComplete) : way ∈ r.allWays bound span ↔ r.HasWay bound span way := by
  simp only [allWays, List.mem_flatMap, List.mem_filter, List.mem_map, hr.mem_allDivisions_iff, beq_iff_eq]
  constructor
  · rintro ⟨⟨rule, i⟩, ⟨hi, hn⟩, parts, hparts, rfl⟩
    exact ⟨rule, List.mem_zipIdx_iff_getElem?.mp hi, hn, hparts⟩
  · rintro ⟨rule, hi, hn, hparts⟩
    exact ⟨(rule, way.1), ⟨List.mem_zipIdx_iff_getElem?.mpr hi, hn⟩, way.2, hparts, rfl⟩

theorem nodup_allWays : (r.allWays bound span).Nodup := by
  have hnodup : (r.grammar.rules.zipIdx.filter (·.1.name == span.name)).Nodup :=
    (List.Nodup.of_map _ (by rw [List.zipIdx_map_snd]; exact List.nodup_range')).filter _
  refine List.nodup_flatMap.mpr ⟨fun x _ => ?_, hnodup.pairwise_of_forall_ne fun x hx y hy hne way hxw hyw => ?_⟩
  · exact (List.nodup_map_iff fun _ _ h => (Prod.mk.inj h).2).mpr nodup_allDivisions
  · obtain ⟨_, -, rfl⟩ := List.mem_map.mp hxw
    obtain ⟨_, -, he⟩ := List.mem_map.mp hyw
    have hpos : y.2 = x.2 := (Prod.mk.inj he).1
    have hx := List.mem_zipIdx_iff_getElem?.mp (List.mem_of_mem_filter hx)
    have hy := List.mem_zipIdx_iff_getElem?.mp (List.mem_of_mem_filter hy)
    rw [hpos, hx] at hy
    exact hne (Prod.ext (Option.some.inj hy) hpos.symm)

/-- A limit of at least two makes no difference to whether there are two. -/
theorem one_lt_length_flatMap_take_iff {α β : Type} {xs : List α} {g : α → List β} (hlimit : 2 ≤ limit) :
    1 < (xs.flatMap fun x => (g x).take limit).length ↔ 1 < (xs.flatMap g).length := by
  suffices h : min 2 (xs.flatMap fun x => (g x).take limit).length = min 2 (xs.flatMap g).length by omega
  induction xs with
  | nil => rfl
  | cons x xs ih =>
    rw [List.flatMap_cons, List.flatMap_cons, List.length_append, List.length_append, List.length_take]
    omega

theorem map_fst_filter_zipIdx {α : Type} {xs : List α} {p : α → Bool} :
    (xs.zipIdx.filter (p ·.1)).map Prod.fst = xs.filter p := by
  rw [← Function.comp_def, ← List.filter_map, List.zipIdx_map_fst]

theorem one_lt_length_ways_iff_allWays : 1 < (r.ways bound span).length ↔ 1 < (r.allWays bound span).length := by
  have hall : (r.allWays bound span).length = ((r.grammar.rulesFor span.name).flatMap fun rule =>
      r.allDivisions bound span.last rule.rhs span.first).length := by
    rw [Bnf.rulesFor, ← map_fst_filter_zipIdx, List.flatMap_map, allWays]
    simp only [List.length_flatMap, List.length_map]
  have hways : (r.ways bound span).length = ((r.grammar.rulesFor span.name).flatMap fun rule =>
      (r.allDivisions bound span.last rule.rhs span.first).take divisionLimit).length := by
    simp only [ways, divisions_eq_take, List.length_flatMap, List.length_map]
  rw [hall, hways, one_lt_length_flatMap_take_iff (by decide)]

theorem one_lt_length_iff_nontrivial {α : Type} {xs : List α} (h : xs.Nodup) :
    1 < xs.length ↔ {x | x ∈ xs}.Nontrivial := by
  match xs, h with
  | [], _ => simp
  | [x], _ => simp
  | x :: y :: xs, h =>
    have hne : x ≠ y := by
      rintro rfl
      simp at h
    simp only [List.length_cons, Nat.lt_add_left_iff_pos, Nat.zero_lt_succ, true_iff]
    exact ⟨x, by simp, y, by simp, hne⟩

theorem IsComplete.one_lt_length_ways_iff (hr : r.IsComplete) :
    1 < (r.ways bound span).length ↔ {way | r.HasWay bound span way}.Nontrivial := by
  rw [one_lt_length_ways_iff_allWays, one_lt_length_iff_nontrivial nodup_allWays]
  simp only [hr.mem_allWays_iff]

end Ixml.Recognition
