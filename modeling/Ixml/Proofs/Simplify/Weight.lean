import Ixml.Proofs.Simplify.Exchange

/-!
# Why simplification ends

The `weight` of a tree bounds how deep constructs are nested in it, where a construct counts for as many
rules as it takes to give it up. The `load` of a rule is what its alternatives weigh. A new rule has a smaller
load than the construct that it comes from (`Exchange.load_lt`), and no exchange makes a rule heavier
(`Exchange.load_le`). A rule of load zero holds no construct any more, and `weight_le_size` bounds every load
by the number of nodes.
-/

namespace Ixml

/-- What a construct with a number of children adds to the weight of its heaviest child. -/
def Construct.ownWeight : Construct → Nat → Nat
  | alts, _ => 1
  | option, _ => 1
  | repeat1, n => if n ≤ 1 then 1 else 4
  | repeat0, n => if n ≤ 1 then 2 else 6
  | _, _ => 0

namespace Tree

mutual

/-- How heavy the constructs of a tree are that stand below each other. -/
def weight : Tree → Nat
  | node l ts => l.kind.ownWeight ts.length + maxWeight ts

def maxWeight : List Tree → Nat
  | [] => 0
  | t :: ts => max (weight t) (maxWeight ts)

end

theorem length_le_sizeForest (ts : List Tree) : ts.length ≤ sizeForest ts := by
  induction ts with
  | nil => simp
  | cons t ts ih =>
    cases t
    simp only [List.length_cons, sizeForest, size]
    omega

mutual

/-- No tree weighs more than four times the number of its nodes. -/
theorem weight_le_size : ∀ t : Tree, t.weight ≤ 4 * t.size
  | node l ts => by
    have hmax := maxWeight_le_sizeForest ts
    have hown : l.kind.ownWeight ts.length ≤ 2 ∨
        (l.kind.ownWeight ts.length ≤ 6 ∧ 2 ≤ ts.length) := by
      cases l.kind <;> simp only [Construct.ownWeight] <;> first | omega | (split <;> omega)
    rw [weight, size]
    rcases ts with _ | ⟨t, ts⟩
    · simp only [maxWeight, List.length_nil] at *
      omega
    · simp only [List.length_cons] at *
      omega

/-- Only one of several trees is the heaviest. -/
theorem maxWeight_le_sizeForest : ∀ ts : List Tree, maxWeight ts + 4 * (ts.length - 1) ≤ 4 * sizeForest ts
  | [] => by simp [maxWeight, sizeForest]
  | t :: ts => by
    have ht := weight_le_size t
    have hts := maxWeight_le_sizeForest ts
    have hlen := length_le_sizeForest ts
    have hpos : 1 ≤ t.size := by
      cases t
      simp [size]
    simp only [maxWeight, sizeForest, List.length_cons]
    omega

end

theorem maxWeight_le_iff {ts : List Tree} {n : Nat} : maxWeight ts ≤ n ↔ ∀ t ∈ ts, t.weight ≤ n := by
  induction ts with
  | nil => simp [maxWeight]
  | cons t ts ih => rw [maxWeight, Nat.max_le, ih, List.forall_mem_cons]

end Tree

namespace Layout

variable {i : NodeId} {l : Label} {t u : Layout} {ts us : List Layout} {z : List Frame} {f : Frame} {n : Nat}

/-- How heavy the constructs of a layout are that stand below each other. -/
def weight (t : Layout) : Nat :=
  t.erase.weight

def maxWeight : List Layout → Nat
  | [] => 0
  | t :: ts => max t.weight (maxWeight ts)

/-- What the alternatives of a rule weigh. -/
def load (t : Layout) : Nat :=
  maxWeight (t.children.flatMap children)

@[simp] theorem maxWeight_nil : maxWeight [] = 0 := rfl

@[simp] theorem maxWeight_cons (t : Layout) (ts : List Layout) :
    maxWeight (t :: ts) = max t.weight (maxWeight ts) := rfl

@[simp] theorem maxWeight_append (ts us : List Layout) :
    maxWeight (ts ++ us) = max (maxWeight ts) (maxWeight us) := by
  induction ts with
  | nil => simp
  | cons t ts ih => simp [ih, Nat.max_assoc]

theorem maxWeight_map_erase (ts : List Layout) : Tree.maxWeight (ts.map erase) = maxWeight ts := by
  induction ts with
  | nil => rfl
  | cons t ts ih => simp [Tree.maxWeight, ih, weight]

@[simp] theorem weight_node (i : NodeId) (l : Label) (ts : List Layout) :
    (node i l ts).weight = l.kind.ownWeight ts.length + maxWeight ts := by
  simp [weight, Tree.weight, maxWeight_map_erase]

theorem weight_of_erase_eq (h : u.erase = t.erase) : u.weight = t.weight := by
  rw [weight, h, weight]

theorem weight_le_maxWeight (h : t ∈ ts) : t.weight ≤ maxWeight ts := by
  obtain ⟨bs, as, rfl⟩ := List.append_of_mem h
  simp only [maxWeight_append, maxWeight_cons]
  omega

theorem maxWeight_le_weight (t : Layout) : maxWeight t.children ≤ t.weight := by
  cases t
  simp

theorem weight_le_fill (z : List Frame) (t : Layout) : t.weight ≤ (fill z t).weight := by
  induction z generalizing t with
  | nil => exact Nat.le_refl _
  | cons f z ih =>
    refine Nat.le_trans ?_ (ih (f.fill t))
    exact Nat.le_trans (weight_le_maxWeight (by simp [Frame.fill])) (maxWeight_le_weight (f.fill t))

theorem weight_frame_mono (f : Frame) (h : u.weight ≤ t.weight) : (f.fill u).weight ≤ (f.fill t).weight := by
  simp only [Frame.fill, weight_node, List.length_append, List.length_cons, maxWeight_append, maxWeight_cons]
  omega

theorem weight_fill_mono (z : List Frame) (h : u.weight ≤ t.weight) :
    (fill z u).weight ≤ (fill z t).weight := by
  induction z generalizing t u with
  | nil => exact h
  | cons f z ih => exact ih (weight_frame_mono f h)

theorem load_fill_append (z : List Frame) (f : Frame) (t : Layout) :
    (fill (z ++ [f]) t).load =
      maxWeight (f.before.flatMap children ++ (fill z t).children ++ f.after.flatMap children) := by
  simp [fill_append, fill_cons, load]

theorem weight_le_load (f g : Frame) (z : List Frame) (t : Layout) :
    t.weight ≤ (fill (f :: (z ++ [g])) t).load := by
  rw [← List.cons_append, load_fill_append]
  have hmem : maxWeight (fill (f :: z) t).children ≤
      maxWeight (g.before.flatMap children ++ (fill (f :: z) t).children ++ g.after.flatMap children) := by
    simp only [maxWeight_append]
    omega
  refine Nat.le_trans ?_ hmem
  rcases List.eq_nil_or_concat z with rfl | ⟨us, h, rfl⟩
  · exact weight_le_maxWeight (by simp [fill_cons])
  · rw [List.concat_eq_append, ← List.cons_append, fill_append]
    exact Nat.le_trans (weight_le_fill (f :: us) t) (weight_le_maxWeight (by simp [fill_cons]))

/-- A lighter layout below the body makes a rule no heavier. -/
theorem load_fill_mono (f g : Frame) (z : List Frame) (h : u.weight ≤ t.weight) :
    (fill (f :: (z ++ [g])) u).load ≤ (fill (f :: (z ++ [g])) t).load := by
  rw [← List.cons_append, load_fill_append, load_fill_append]
  suffices maxWeight (fill (f :: z) u).children ≤ maxWeight (fill (f :: z) t).children by
    simp only [maxWeight_append]
    omega
  rcases List.eq_nil_or_concat z with rfl | ⟨us, k, rfl⟩
  · simp only [fill_cons, fill_nil, children_node, maxWeight_append, maxWeight_cons]
    omega
  · rw [List.concat_eq_append, ← List.cons_append, fill_append, fill_append]
    have := weight_fill_mono (f :: us) h
    simp only [fill_cons, fill_nil, children_node, maxWeight_append, maxWeight_cons] at this ⊢
    omega

end Layout

namespace Simplify

open Layout

variable {X : String} {m m' : Nat} {t u b r : Layout} {rs : List Layout} {f : Frame} {z : List Frame}

theorem Unfolds.maxWeight_lt (h : Unfolds X t b) : maxWeight b.children < t.weight := by
  cases h with
  | @plusSepStar i j a b c d q l k f f' s hl hk he =>
    have := weight_of_erase_eq he
    simp only [plain, weight_node, children_node, maxWeight_cons, maxWeight_nil, List.length_cons,
      List.length_nil, hl, hk, Construct.ownWeight]
    simp
    omega
  | @plusSepSelf i j a b c r l k f f' s hl hk he =>
    have := weight_of_erase_eq he
    simp [plain, hl, hk, Construct.ownWeight, referenceLabel]
    omega
  | @plus i a b c r l f f' hl he =>
    have := weight_of_erase_eq he
    simp [plain, hl, Construct.ownWeight, referenceLabel]
    omega
  | @starSepOption i a b o p l f s hl =>
    simp [plain, hl, Construct.ownWeight]
    omega
  | @starSepEmpty i a b c p l f s hl =>
    simp [plain, hl, Construct.ownWeight]
  | @star i a b c r l f hl =>
    simp [plain, hl, Construct.ownWeight, referenceLabel]
  | @option i a b c l f hl =>
    simp [plain, hl, Construct.ownWeight]
  | @group i l ts hl =>
    simp [hl, Construct.ownWeight]

theorem Rewrites.weight_le (h : Rewrites t u) : u.weight ≤ t.weight := by
  cases h with
  | @star i o p l f hl =>
    simp [plain, hl, Construct.ownWeight]
    omega
  | option => simp
  | group => simp [referenceLabel, Construct.ownWeight]

theorem Exchange.weight_le (h : Exchange m t u rs m') : u.weight ≤ t.weight := by
  cases h with
  | unfold => simp [referenceLabel, Construct.ownWeight]
  | rewrite h => exact h.weight_le

theorem Exchange.load_lt (h : Exchange m t u rs m') (hr : r ∈ rs) : r.load < t.weight := by
  cases h with
  | unfold hX h =>
    rw [List.mem_singleton] at hr
    simpa [hr, load] using h.maxWeight_lt
  | rewrite h => cases hr

theorem exists_concat_of_isRule (hf : f.label.kind.isRule = false) (h : (fill (f :: z) t).kind.isRule = true) :
    ∃ us g, z = us ++ [g] := by
  rcases List.eq_nil_or_concat z with rfl | ⟨us, g, rfl⟩
  · rw [show fill [f] t = node f.id f.label (f.before ++ t :: f.after) from rfl, kind_node, hf] at h
    cases h
  · exact ⟨us, g, by simp⟩

theorem Exchange.load_fill_le (h : Exchange m t u rs m') (hf : f.label.kind.isRule = false)
    (hrule : (fill (f :: z) t).kind.isRule = true) : (fill (f :: z) u).load ≤ (fill (f :: z) t).load := by
  obtain ⟨us, g, rfl⟩ := exists_concat_of_isRule hf hrule
  exact load_fill_mono f g us h.weight_le

theorem Exchange.load_lt_fill (h : Exchange m t u rs m') (hr : r ∈ rs) (hf : f.label.kind.isRule = false)
    (hrule : (fill (f :: z) t).kind.isRule = true) : r.load < (fill (f :: z) t).load := by
  obtain ⟨us, g, rfl⟩ := exists_concat_of_isRule hf hrule
  exact Nat.lt_of_lt_of_le (h.load_lt hr) (weight_le_load f g us t)

end Simplify

end Ixml
