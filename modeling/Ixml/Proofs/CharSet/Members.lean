import Ixml.CharSet.Category
import Mathlib.Order.Basic

/-!
# Members of sets of characters

The ranges of a set are in order and leave a code point between them (`CharSet.Separated`), which every operation keeps
up, and so the binary search finds exactly the characters that some range covers. Each operation then has the members
that its name says (`insertRange_spec`, `union_spec`, `ofCategory_spec`).
-/

namespace Ixml.CharSet

open Unicode (GeneralCategory)

/-- One of some ranges covers a character. -/
def Covers (rs : List CharRange) (c : Char) : Prop :=
  ∃ r ∈ rs, r.1 ≤ c ∧ c ≤ r.2

/-- One of some ranges goes over a code point, which may be a surrogate. -/
def Fills (rs : List CharRange) (n : Nat) : Prop :=
  ∃ r ∈ rs, r.1.toNat ≤ n ∧ n ≤ r.2.toNat

variable {rs ss : List CharRange} {r s : CharRange} {a b c d : Char} {S T : CharSet} {n : Nat}

theorem le_iff_toNat : a ≤ b ↔ a.toNat ≤ b.toNat := Iff.rfl

theorem lt_iff_toNat : a < b ↔ a.toNat < b.toNat := Iff.rfl

@[simp] theorem covers_nil : ¬Covers [] c := by
  simp [Covers]

@[simp] theorem covers_cons : Covers (r :: rs) c ↔ (r.1 ≤ c ∧ c ≤ r.2) ∨ Covers rs c := by
  simp [Covers]

@[simp] theorem covers_append : Covers (rs ++ ss) c ↔ Covers rs c ∨ Covers ss c := by
  simp [Covers, or_and_right, exists_or]

@[simp] theorem fills_nil : ¬Fills [] n := by
  simp [Fills]

@[simp] theorem fills_cons : Fills (r :: rs) n ↔ (r.1.toNat ≤ n ∧ n ≤ r.2.toNat) ∨ Fills rs n := by
  simp [Fills]

@[simp] theorem fills_append : Fills (rs ++ ss) n ↔ Fills rs n ∨ Fills ss n := by
  simp [Fills, or_and_right, exists_or]

/-- The ranges are not empty, and each ends before the next begins. -/
structure Ordered (rs : List CharRange) : Prop where
  nonempty : ∀ r ∈ rs, r.1 ≤ r.2
  apart : rs.Pairwise fun r s => r.2 < s.1

/-- The ranges are not empty and come in ascending order, and there is a code point at least between each and the
next. -/
structure Separated (rs : List CharRange) : Prop where
  nonempty : ∀ r ∈ rs, r.1 ≤ r.2
  gaps : rs.Pairwise fun r s => r.2.toNat + 2 ≤ s.1.toNat

theorem Separated.ordered (h : Separated rs) : Ordered rs :=
  ⟨h.nonempty, h.gaps.imp fun h => by rw [lt_iff_toNat]; omega⟩

theorem Separated.cons (hr : r.1 ≤ r.2) (hgap : ∀ s ∈ rs, r.2.toNat + 2 ≤ s.1.toNat) (h : Separated rs) :
    Separated (r :: rs) :=
  ⟨List.forall_mem_cons.mpr ⟨hr, h.nonempty⟩, List.pairwise_cons.mpr ⟨hgap, h.gaps⟩⟩

/-! ### Searching -/

theorem Ordered.le {v : Array CharRange} (h : Ordered v.toList) {i j : Nat} (hij : i ≤ j) (hr : v[i]? = some r)
    (hs : v[j]? = some s) : r.1 ≤ s.1 ∧ r.2 ≤ s.2 := by
  rcases Nat.lt_or_eq_of_le hij with hij | rfl
  · obtain ⟨hi, rfl⟩ := Array.getElem?_eq_some_iff.mp hr
    obtain ⟨hj, rfl⟩ := Array.getElem?_eq_some_iff.mp hs
    have hi' : i < v.toList.length := hi
    have hj' : j < v.toList.length := hj
    have hapart := List.pairwise_iff_getElem.mp h.apart i j hi' hj' hij
    have hr := h.nonempty _ (List.getElem_mem hi')
    have hs := h.nonempty _ (List.getElem_mem hj')
    simp only [Array.getElem_toList, le_iff_toNat, lt_iff_toNat] at hapart hr hs ⊢
    omega
  · obtain rfl : r = s := Option.some.inj (hr.symm.trans hs)
    exact ⟨Char.le_refl _, Char.le_refl _⟩

theorem search_eq_true_iff {v : Array CharRange} (h : Ordered v.toList) {lo hi : Nat} (hhi : hi ≤ v.size) :
    search v c lo hi = true ↔ ∃ i, lo ≤ i ∧ i < hi ∧ ∃ r, v[i]? = some r ∧ r.1 ≤ c ∧ c ≤ r.2 := by
  induction lo, hi using search.induct v c with
  | case1 lo hi hlt mid hmid =>
    have : mid < v.size := by omega
    simp [this] at hmid
  | case2 lo hi hlt mid r hmid hlower ih =>
    rw [search, if_pos hlt]
    simp only [show v[(lo + hi) / 2]? = some r from hmid, if_pos hlower]
    refine (ih hhi).trans ⟨?_, ?_⟩
    · rintro ⟨i, hi₁, hi₂, hcov⟩
      exact ⟨i, by omega, hi₂, hcov⟩
    · rintro ⟨i, hi₁, hi₂, s, hs, hsc, hcs⟩
      -- what ends behind the middle range comes later
      have him : mid < i := Nat.lt_of_not_le fun him =>
        Char.not_lt.mpr (Char.le_trans hcs (h.le him hs hmid).2) hlower
      exact ⟨i, him, hi₂, s, hs, hsc, hcs⟩
  | case3 lo hi hlt mid r hmid hlower hupper ih =>
    rw [search, if_pos hlt]
    simp only [show v[(lo + hi) / 2]? = some r from hmid, if_neg hlower, if_pos hupper]
    refine (ih (by omega)).trans ⟨?_, ?_⟩
    · rintro ⟨i, hi₁, hi₂, hcov⟩
      exact ⟨i, hi₁, by omega, hcov⟩
    · rintro ⟨i, hi₁, hi₂, s, hs, hsc, hcs⟩
      -- what begins before the middle range comes earlier
      have him : i < mid := Nat.lt_of_not_le fun him =>
        Char.not_lt.mpr (Char.le_trans (h.le him hmid hs).1 hsc) hupper
      exact ⟨i, hi₁, him, s, hs, hsc, hcs⟩
  | case4 lo hi hlt mid r hmid hlower hupper =>
    rw [search, if_pos hlt]
    simp only [show v[(lo + hi) / 2]? = some r from hmid, if_neg hlower, if_neg hupper, true_iff]
    exact ⟨mid, by omega, by omega, r, hmid, Char.not_lt.mp hupper, Char.not_lt.mp hlower⟩
  | case5 lo hi hge =>
    rw [search, if_neg hge]
    constructor
    · intro h
      cases h
    · rintro ⟨i, hi₁, hi₂, -⟩
      omega

theorem contains_iff (h : Ordered S.ranges.toList) : S.contains c = true ↔ Covers S.ranges.toList c := by
  rw [contains, search_eq_true_iff h (Nat.le_refl _), Covers]
  constructor
  · rintro ⟨i, -, -, r, hr, hcov⟩
    exact ⟨r, Array.mem_toList_iff.mpr (Array.mem_of_getElem? hr), hcov⟩
  · rintro ⟨r, hr, hcov⟩
    obtain ⟨i, hi, rfl⟩ := Array.getElem_of_mem (Array.mem_toList_iff.mp hr)
    exact ⟨i, Nat.zero_le i, hi, _, Array.getElem?_eq_getElem hi, hcov⟩

/-! ### Restoring the order -/

theorem fills_coalesce (hr : r.1 ≤ r.2) (hrs : ∀ s ∈ rs, s.1 ≤ s.2) (hle : (r :: rs).Pairwise fun r s => r.1 ≤ s.1) :
    Fills (coalesce r rs) n ↔ Fills (r :: rs) n := by
  fun_induction coalesce r rs with
  | case1 => exact Iff.rfl
  | case2 r s rs htouch ih =>
    have hs := hrs s (List.mem_cons_self ..)
    obtain ⟨hle, hpair⟩ := List.pairwise_cons.mp hle
    have hrs₁ := hle s (List.mem_cons_self ..)
    have hnew : r.1 ≤ (if r.2 < s.2 then s.2 else r.2) := by
      simp only [le_iff_toNat, lt_iff_toNat] at *
      split <;> omega
    have hpair' : ((r.1, if r.2 < s.2 then s.2 else r.2) :: rs).Pairwise fun r s => r.1 ≤ s.1 :=
      List.pairwise_cons.mpr ⟨fun t ht => hle t (List.mem_cons_of_mem _ ht), (List.pairwise_cons.mp hpair).2⟩
    rw [ih hnew (fun t ht => hrs t (List.mem_cons_of_mem _ ht)) hpair', fills_cons, fills_cons, fills_cons,
      ← or_assoc]
    refine or_congr_left ?_
    simp only [le_iff_toNat, lt_iff_toNat] at *
    split <;> omega
  | case3 r s rs htouch ih =>
    rw [fills_cons, fills_cons, ih (hrs s (List.mem_cons_self ..)) (fun t ht => hrs t (List.mem_cons_of_mem _ ht))
      (List.pairwise_cons.mp hle).2, fills_cons]

theorem separated_coalesce (hr : r.1 ≤ r.2) (hrs : ∀ s ∈ rs, s.1 ≤ s.2)
    (hle : (r :: rs).Pairwise fun r s => r.1 ≤ s.1) : Separated (coalesce r rs) ∧ ∀ s ∈ coalesce r rs, r.1 ≤ s.1 := by
  fun_induction coalesce r rs with
  | case1 r =>
    refine ⟨⟨by simpa using hr, by simp⟩, fun s hs => ?_⟩
    obtain rfl := List.mem_singleton.mp hs
    exact Nat.le_refl _
  | case2 r s rs htouch ih =>
    obtain ⟨hle, hpair⟩ := List.pairwise_cons.mp hle
    have hrs₁ := hle s (List.mem_cons_self ..)
    have hs := hrs s (List.mem_cons_self ..)
    refine ih ?_ (fun t ht => hrs t (List.mem_cons_of_mem _ ht))
      (List.pairwise_cons.mpr ⟨fun t ht => hle t (List.mem_cons_of_mem _ ht), (List.pairwise_cons.mp hpair).2⟩)
    simp only [le_iff_toNat, lt_iff_toNat] at *
    split <;> omega
  | case3 r s rs htouch ih =>
    obtain ⟨hle, hpair⟩ := List.pairwise_cons.mp hle
    have hrs₁ := hle s (List.mem_cons_self ..)
    obtain ⟨hsep, hfirst⟩ := ih (hrs s (List.mem_cons_self ..)) (fun t ht => hrs t (List.mem_cons_of_mem _ ht)) hpair
    have hgap : ∀ t ∈ coalesce s rs, r.2.toNat + 2 ≤ t.1.toNat := by
      intro t ht
      have := hfirst t ht
      simp only [le_iff_toNat] at *
      omega
    refine ⟨hsep.cons hr hgap, fun t ht => ?_⟩
    rcases List.mem_cons.mp ht with rfl | ht
    · exact Nat.le_refl _
    · exact Nat.le_trans hrs₁ (hfirst t ht)

/-- The order is restored, and every code point is filled as before, the surrogates too. -/
theorem separated_normalize (hrs : ∀ r ∈ rs, r.1 ≤ r.2) :
    Separated (normalize rs) ∧ ∀ n, Fills (normalize rs) n ↔ Fills rs n := by
  have hperm := List.mergeSort_perm rs fun a b => a.1 ≤ b.1
  have hsort : (rs.mergeSort fun a b => a.1 ≤ b.1).Pairwise fun r s => r.1 ≤ s.1 := by
    refine (List.pairwise_mergeSort (fun a b c hab hbc => ?_) (fun a b => ?_) rs).imp fun h => by simpa using h
    · simp only [decide_eq_true_eq, le_iff_toNat] at *
      omega
    · simp only [Bool.or_eq_true, decide_eq_true_eq, le_iff_toNat]
      omega
  have hfill (n : Nat) : Fills (rs.mergeSort fun a b => a.1 ≤ b.1) n ↔ Fills rs n := by
    simp only [Fills, hperm.mem_iff]
  rw [normalize]
  cases hm : rs.mergeSort fun a b => a.1 ≤ b.1 with
  | nil =>
    rw [hm] at hfill
    exact ⟨⟨by simp, by simp⟩, hfill⟩
  | cons r ss =>
    rw [hm] at hfill hsort hperm
    have hne : ∀ t ∈ r :: ss, t.1 ≤ t.2 := fun t ht => hrs t (hperm.mem_iff.mp ht)
    have hr := hne r (List.mem_cons_self ..)
    have hss : ∀ t ∈ ss, t.1 ≤ t.2 := fun t ht => hne t (List.mem_cons_of_mem _ ht)
    exact ⟨(separated_coalesce hr hss hsort).1, fun n => (fills_coalesce hr hss hsort).trans (hfill n)⟩

theorem normalize_spec (hrs : ∀ r ∈ rs, r.1 ≤ r.2) :
    Separated (normalize rs) ∧ ∀ c, Covers (normalize rs) c ↔ Covers rs c :=
  (separated_normalize hrs).imp_right fun h c => h c.toNat

/-! ### Ranges from what they fill -/

theorem Separated.tail (h : Separated (r :: rs)) : Separated rs :=
  ⟨fun s hs => h.nonempty s (List.mem_cons_of_mem r hs), (List.pairwise_cons.mp h.gaps).2⟩

theorem Separated.le_of_fills (h : Separated (r :: rs)) (hn : Fills (r :: rs) n) : r.1.toNat ≤ n := by
  rcases fills_cons.mp hn with hr | ⟨s, hs, hsn, -⟩
  · exact hr.1
  · have hgap := (List.pairwise_cons.mp h.gaps).1 s hs
    have hr := h.nonempty r (List.mem_cons_self ..)
    rw [le_iff_toNat] at hr
    omega

theorem Separated.fills_tail_iff (h : Separated (r :: rs)) : Fills rs n ↔ Fills (r :: rs) n ∧ r.2.toNat < n := by
  rw [fills_cons]
  constructor
  · rintro ⟨s, hs, hsn, hns⟩
    have hgap := (List.pairwise_cons.mp h.gaps).1 s hs
    exact ⟨.inr ⟨s, hs, hsn, hns⟩, by omega⟩
  · rintro ⟨hr | hrs, hn⟩
    · omega
    · exact hrs

theorem Separated.not_fills_succ (h : Separated (r :: rs)) : ¬Fills (r :: rs) (r.2.toNat + 1) := by
  intro hn
  rcases fills_cons.mp hn with hr | ⟨s, hs, hsn, -⟩
  · omega
  · have hgap := (List.pairwise_cons.mp h.gaps).1 s hs
    omega

theorem Separated.end_le (hr : Separated (r :: rs)) (h : ∀ n, Fills (r :: rs) n ↔ Fills (s :: ss) n)
    (hrs : r.1 = s.1) : s.2.toNat ≤ r.2.toNat := by
  by_contra hlt
  refine hr.not_fills_succ ((h _).mpr (fills_cons.mpr (.inl ⟨?_, by omega⟩)))
  have hr₁ := hr.nonempty r (List.mem_cons_self ..)
  rw [le_iff_toNat] at hr₁
  rw [← hrs]
  omega

/-- Ranges with a gap between them are determined by the code points that they fill. -/
theorem Separated.eq_of_fills (hr : Separated rs) (hs : Separated ss) (h : ∀ n, Fills rs n ↔ Fills ss n) :
    rs = ss := by
  have hfirst {r : CharRange} {rs : List CharRange} (hr : Separated (r :: rs)) : Fills (r :: rs) r.1.toNat :=
    fills_cons.mpr (.inl ⟨Nat.le_refl _, hr.nonempty r (List.mem_cons_self ..)⟩)
  induction rs generalizing ss with
  | nil =>
    cases ss with
    | nil => rfl
    | cons s ss => exact absurd ((h _).mpr (hfirst hs)) fills_nil
  | cons r rs ih =>
    cases ss with
    | nil => exact absurd ((h _).mp (hfirst hr)) fills_nil
    | cons s ss =>
      have hstart : r.1 = s.1 := by
        have h₁ := hr.le_of_fills ((h _).mpr (hfirst hs))
        have h₂ := hs.le_of_fills ((h _).mp (hfirst hr))
        exact Char.toNat_inj.mp (by omega)
      have hend : r.2 = s.2 := by
        have h₁ := hr.end_le h hstart
        have h₂ := hs.end_le (fun n => (h n).symm) hstart.symm
        exact Char.toNat_inj.mp (by omega)
      obtain rfl : r = s := Prod.ext hstart hend
      rw [ih hr.tail hs.tail fun n => by rw [hr.fills_tail_iff, hs.fills_tail_iff, h]]

/-- Ranges that are in order with gaps between them stay as they are. -/
theorem Separated.normalize_eq (h : Separated rs) : normalize rs = rs :=
  have hspec := separated_normalize h.nonempty
  hspec.1.eq_of_fills h hspec.2

/-! ### Operations -/

/-- The ranges of the set are in order. -/
def IsOrdered (S : CharSet) : Prop :=
  Ordered S.ranges.toList

/-- The ranges of the set are in order and leave a code point between them. -/
def IsSeparated (S : CharSet) : Prop :=
  Separated S.ranges.toList

theorem IsSeparated.isOrdered (h : S.IsSeparated) : S.IsOrdered :=
  h.ordered

theorem isSeparated_ofRanges (hrs : ∀ r ∈ rs, r.1 ≤ r.2) : (ofRanges rs).IsSeparated :=
  (normalize_spec hrs).1

theorem isOrdered_ofRanges (hrs : ∀ r ∈ rs, r.1 ≤ r.2) : (ofRanges rs).IsOrdered :=
  (isSeparated_ofRanges hrs).isOrdered

theorem contains_ofRanges (hrs : ∀ r ∈ rs, r.1 ≤ r.2) : (ofRanges rs).contains c = true ↔ Covers rs c :=
  (contains_iff (isOrdered_ofRanges hrs)).trans ((normalize_spec hrs).2 c)

theorem isOrdered_empty : empty.IsOrdered :=
  ⟨by simp [empty], by simp [empty]⟩

theorem contains_empty : empty.contains c = false := by
  rw [← Bool.not_eq_true, contains_iff isOrdered_empty]
  simp [empty]

theorem nonempty_insertRange (hS : S.IsOrdered) (hab : a ≤ b) : ∀ r ∈ S.ranges.toList ++ [(a, b)], r.1 ≤ r.2 :=
  List.forall_mem_append.mpr ⟨hS.nonempty, List.forall_mem_singleton.mpr hab⟩

theorem nonempty_union (hS : S.IsOrdered) (hT : T.IsOrdered) : ∀ r ∈ S.ranges.toList ++ T.ranges.toList, r.1 ≤ r.2 :=
  List.forall_mem_append.mpr ⟨hS.nonempty, hT.nonempty⟩

theorem isSeparated_insertRange (hS : S.IsSeparated) (a b : Char) : (S.insertRange a b).IsSeparated := by
  rw [insertRange]
  split
  · next hab => exact isSeparated_ofRanges (nonempty_insertRange hS.isOrdered hab)
  · exact hS

theorem isSeparated_union (hS : S.IsSeparated) (hT : T.IsSeparated) : (S.union T).IsSeparated :=
  isSeparated_ofRanges (nonempty_union hS.isOrdered hT.isOrdered)

theorem insertRange_spec (hS : S.IsOrdered) (a b : Char) : (S.insertRange a b).IsOrdered ∧
    ((S.insertRange a b).contains c = true ↔ S.contains c = true ∨ (a ≤ c ∧ c ≤ b)) := by
  rw [insertRange]
  split
  · rename_i hab
    have hne := nonempty_insertRange hS hab
    refine ⟨isOrdered_ofRanges hne, ?_⟩
    rw [contains_ofRanges hne, covers_append, contains_iff hS]
    simp
  · rename_i hab
    refine ⟨hS, ?_⟩
    rw [or_iff_left]
    rintro ⟨hac, hcb⟩
    simp only [le_iff_toNat] at *
    omega

theorem insert_spec (hS : S.IsOrdered) (d : Char) : (S.insert d).IsOrdered ∧
    ((S.insert d).contains c = true ↔ S.contains c = true ∨ c = d) := by
  obtain ⟨hord, hcont⟩ := insertRange_spec (c := c) hS d d
  refine ⟨hord, hcont.trans (or_congr_right ⟨fun h => Char.toNat_inj.mp ?_, ?_⟩)⟩
  · simp only [le_iff_toNat] at h
    omega
  · rintro rfl
    simp only [le_iff_toNat]
    omega

theorem insertAll_spec (hS : S.IsOrdered) (cs : List Char) : (cs.foldl insert S).IsOrdered ∧
    ((cs.foldl insert S).contains c = true ↔ S.contains c = true ∨ c ∈ cs) := by
  induction cs generalizing S with
  | nil => exact ⟨hS, by simp⟩
  | cons d cs ih =>
    obtain ⟨hord, hcont⟩ := insert_spec (c := c) hS d
    obtain ⟨hord', hcont'⟩ := ih hord
    refine ⟨hord', ?_⟩
    rw [List.foldl_cons, hcont', hcont, List.mem_cons, or_assoc]

theorem union_spec (hS : S.IsOrdered) (hT : T.IsOrdered) : (S.union T).IsOrdered ∧
    ((S.union T).contains c = true ↔ S.contains c = true ∨ T.contains c = true) := by
  have hne := nonempty_union hS hT
  refine ⟨isOrdered_ofRanges hne, ?_⟩
  rw [union, contains_ofRanges hne, covers_append, contains_iff hS, contains_iff hT]

/-! ### Categories -/

variable {p : Char → Bool}

/-- A scan has found exactly the characters with `p` among those before the code point `n`, and no character lies
between the end of the present run and `n`. -/
structure Scan.Finds (p : Char → Bool) (n : Nat) (s : Scan) : Prop where
  covers : ∀ c, Covers s.runs c ↔ p c = true ∧ c.toNat < n
  nonempty : ∀ r ∈ s.runs, r.1 ≤ r.2
  last : ∀ r, s.run = some r → ∀ c : Char, r.2 < c → n ≤ c.toNat

theorem Scan.runs_of_run {ended : Array CharRange} {r : CharRange} :
    Scan.runs ⟨ended, some r⟩ = ended.toList ++ [r] := rfl

theorem toNat_lt_succ_iff : c.toNat < d.toNat + 1 ↔ c.toNat < d.toNat ∨ c = d := by
  rw [← Char.toNat_inj]
  omega

theorem succ_le_toNat (h : d < c) : d.toNat + 1 ≤ c.toNat := by
  rw [lt_iff_toNat] at h
  omega

/-- A character with `p` goes on with the present run. -/
theorem Scan.Finds.extend {ended : Array CharRange} (h : Scan.Finds p d.toNat ⟨ended, some r⟩) (hp : p d = true) :
    Scan.Finds p (d.toNat + 1) ⟨ended, some (r.1, d)⟩ := by
  have hr : r.1 ≤ r.2 := h.nonempty r (by simp [Scan.runs])
  have hrd : r.2.toNat < d.toNat := ((h.covers r.2).mp ⟨r, by simp [Scan.runs], hr, Nat.le_refl _⟩).2
  refine ⟨fun c => ?_, fun t ht => ?_, fun t ht c hc => ?_⟩
  · have hc := h.covers c
    have hl := h.last r rfl c
    rw [Scan.runs_of_run] at hc
    simp only [Scan.runs_of_run, covers_append, covers_cons, covers_nil, or_false] at hc ⊢
    rw [toNat_lt_succ_iff]
    by_cases hcd : c = d
    · subst hcd
      simp only [le_iff_toNat] at *
      exact ⟨fun _ => ⟨hp, Or.inr trivial⟩, fun _ => Or.inr ⟨by omega, by omega⟩⟩
    · have hne : c.toNat ≠ d.toNat := fun he => hcd (Char.toNat_inj.mp he)
      rw [or_iff_left hcd, ← hc]
      simp only [le_iff_toNat, lt_iff_toNat] at *
      refine or_congr_right ⟨fun h => ⟨h.1, ?_⟩, fun h => ⟨h.1, by omega⟩⟩
      by_contra hlt
      exact absurd (hl (by omega)) (by omega)
  · rw [Scan.runs_of_run, List.mem_append, List.mem_singleton] at ht
    rcases ht with ht | rfl
    · exact h.nonempty t (by simp [Scan.runs, ht])
    · simp only [le_iff_toNat] at *
      omega
  · cases ht
    exact succ_le_toNat hc

/-- A character with `p` begins a run where there is none. -/
theorem Scan.Finds.start {ended : Array CharRange} (h : Scan.Finds p d.toNat ⟨ended, none⟩) (hp : p d = true) :
    Scan.Finds p (d.toNat + 1) ⟨ended, some (d, d)⟩ := by
  refine ⟨fun c => ?_, fun t ht => ?_, fun t ht c hc => ?_⟩
  · have hc := h.covers c
    simp only [Scan.runs] at hc
    simp only [Scan.runs_of_run, covers_append, covers_cons, covers_nil, or_false, hc]
    rw [toNat_lt_succ_iff, and_or_left]
    refine or_congr_right ?_
    rw [← Char.toNat_inj]
    simp only [le_iff_toNat]
    constructor
    · intro h
      have hcd : c = d := Char.toNat_inj.mp (by omega)
      exact ⟨hcd ▸ hp, by omega⟩
    · rintro ⟨-, h⟩
      omega
  · rw [Scan.runs_of_run, List.mem_append, List.mem_singleton] at ht
    rcases ht with ht | rfl
    · exact h.nonempty t ht
    · exact Nat.le_refl _
  · cases ht
    exact succ_le_toNat hc

theorem Scan.Finds.finish {s s' : Scan} (h : s.Finds p d.toNat) (hp : ¬p d = true) (hs : s'.runs = s.runs)
    (hr : s'.run = none) : s'.Finds p (d.toNat + 1) := by
  refine ⟨fun c => ?_, fun t ht => h.nonempty t (hs ▸ ht), fun t ht => ?_⟩
  · rw [hs, h.covers, toNat_lt_succ_iff]
    refine and_congr_right fun hpc => (or_iff_left ?_).symm
    rintro rfl
    exact hp hpc
  · rw [hr] at ht
    cases ht

theorem Scan.Finds.step {s : Scan} (h : s.Finds p d.toNat) : (s.step p d).Finds p (d.toNat + 1) := by
  obtain ⟨ended, run⟩ := s
  rw [Scan.step]
  by_cases hp : p d = true
  · rw [if_pos hp]
    cases run with
    | some r => exact h.extend hp
    | none => exact h.start hp
  · rw [if_neg hp]
    cases run with
    | some r => exact h.finish hp (by simp [Scan.runs]) rfl
    | none => exact h.finish hp rfl rfl

theorem Scan.Finds.stepCode {s : Scan} (h : s.Finds p n) : (s.stepCode p n).Finds p (n + 1) := by
  rw [Scan.stepCode]
  by_cases hn : n.isValidChar
  · rw [dif_pos hn]
    have hd : (Char.ofNatAux n hn).toNat = n := rfl
    exact Scan.Finds.step (d := Char.ofNatAux n hn) h
  · rw [dif_neg hn]
    -- a surrogate is no character
    have hnext (c : Char) : c.toNat < n + 1 ↔ c.toNat < n := by
      have : c.toNat ≠ n := fun he => hn (he ▸ c.valid)
      omega
    refine ⟨fun c => by rw [h.covers, hnext], h.nonempty, fun r hr c hc => ?_⟩
    have h1 := h.last r hr c hc
    have h2 := hnext c
    omega

theorem finds_fold (p : Char → Bool) (n : Nat) :
    (Nat.fold n (fun m _ s => Scan.stepCode p s m) {}).Finds p n := by
  induction n with
  | zero => exact ⟨fun c => by simp [Scan.runs], by simp [Scan.runs], fun r hr => by cases hr⟩
  | succ n ih =>
    rw [Nat.fold_succ]
    exact ih.stepCode

theorem covers_runsOf (p : Char → Bool) (c : Char) : Covers (runsOf p) c ↔ p c = true := by
  rw [runsOf, (finds_fold p 0x110000).covers]
  have : c.toNat < 0x110000 := by
    have := c.valid
    rcases this with h | ⟨-, h⟩
    · exact Nat.lt_trans h (by decide)
    · exact h
  exact and_iff_left this

/-- The set of a category code has the characters of its categories, whatever category each character has. -/
theorem ofCategoryIn_spec (category : Char → GeneralCategory) {code : String} (h : isCategoryCode code = true) :
    ∃ S : CharSet, ofCategoryIn category code = some S ∧ S.IsSeparated ∧
      ∀ c, S.contains c = true ↔ (category c).inClass code = true := by
  have hne : (categoriesOf code).isEmpty = false := by simpa [isCategoryCode] using h
  have hruns : ∀ r ∈ runsOf fun c => (categoriesOf code).contains (category c), r.1 ≤ r.2 :=
    (finds_fold _ _).nonempty
  refine ⟨_, ?_, isSeparated_ofRanges hruns, fun c => ?_⟩
  · simp [ofCategoryIn, hne]
  · rw [contains_ofRanges hruns, covers_runsOf, List.contains_iff_mem, mem_categoriesOf]

theorem ofCategory_spec {code : String} (h : isCategoryCode code = true) :
    ∃ S : CharSet, ofCategory code = some S ∧ S.IsOrdered ∧
      ∀ c, S.contains c = true ↔ (GeneralCategory.ofChar c).inClass code = true := by
  obtain ⟨S, hS, hsep, hcont⟩ := ofCategoryIn_spec GeneralCategory.ofChar h
  exact ⟨S, hS, hsep.isOrdered, hcont⟩

end Ixml.CharSet
