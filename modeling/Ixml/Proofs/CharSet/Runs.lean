import Ixml.Proofs.CharSet.Members
import Mathlib.Data.List.Pairwise

/-!
# Runs of a category

Between two runs that a scan has found there is always a character that belongs to neither (`Scan.IsSplit`), so that
each run is as long as it can be, across the surrogates too (`exists_mem_runsOf`). The ranges of a category's set are
these runs, and joining them once more changes nothing (`ofCategoryIn_exact`).
-/

namespace Ixml.CharSet

open Unicode (GeneralCategory)

variable {p : Char → Bool} {n : Nat} {d : Char} {r : CharRange}

/-- Some character without `p` comes after one range and before another. -/
def Parted (p : Char → Bool) (r t : CharRange) : Prop :=
  ∃ c, r.2 < c ∧ c < t.1 ∧ ¬p c = true

/-- The runs of a scan are parted from each other, and those that have ended also from all that may come from the code
point `n` on. -/
structure Scan.IsSplit (p : Char → Bool) (n : Nat) (s : Scan) : Prop where
  apart : s.runs.Pairwise (Parted p)
  closed : ∀ r ∈ s.ended.toList, ∃ c, r.2 < c ∧ c.toNat < n ∧ ¬p c = true

theorem Scan.pairwise_runs_iff {ended : Array CharRange} : (Scan.runs ⟨ended, some r⟩).Pairwise (Parted p) ↔
    ended.toList.Pairwise (Parted p) ∧ ∀ t ∈ ended.toList, Parted p t r := by
  rw [Scan.runs_of_run, List.pairwise_append]
  simp

theorem Scan.IsSplit.mono {s : Scan} (h : s.IsSplit p n) {m : Nat} (hnm : n ≤ m) : s.IsSplit p m := by
  refine ⟨h.apart, fun r hr => ?_⟩
  obtain ⟨c, hrc, hcn, hp⟩ := h.closed r hr
  exact ⟨c, hrc, Nat.lt_of_lt_of_le hcn hnm, hp⟩

theorem Scan.IsSplit.extend {ended : Array CharRange} (h : Scan.IsSplit p n ⟨ended, some r⟩) :
    Scan.IsSplit p (n + 1) ⟨ended, some (r.1, d)⟩ := by
  obtain ⟨hended, hlast⟩ := Scan.pairwise_runs_iff.mp h.apart
  exact ⟨Scan.pairwise_runs_iff.mpr ⟨hended, hlast⟩, (h.mono (Nat.le_succ n)).closed⟩

theorem Scan.IsSplit.start {ended : Array CharRange} (h : Scan.IsSplit p d.toNat ⟨ended, none⟩) :
    Scan.IsSplit p (d.toNat + 1) ⟨ended, some (d, d)⟩ := by
  refine ⟨Scan.pairwise_runs_iff.mpr ⟨h.apart, fun t ht => ?_⟩, (h.mono (Nat.le_succ _)).closed⟩
  obtain ⟨c, htc, hcd, hp⟩ := h.closed t ht
  exact ⟨c, htc, hcd, hp⟩

/-- The character that ends a run parts it from all that may come. -/
theorem Scan.IsSplit.finish {ended : Array CharRange} (h : Scan.IsSplit p d.toNat ⟨ended, some r⟩)
    (hf : Scan.Finds p d.toNat ⟨ended, some r⟩) (hp : ¬p d = true) :
    Scan.IsSplit p (d.toNat + 1) ⟨ended.push r, none⟩ := by
  have hruns : Scan.runs ⟨ended.push r, none⟩ = Scan.runs ⟨ended, some r⟩ := by simp [Scan.runs]
  refine ⟨hruns ▸ h.apart, fun t ht => ?_⟩
  rw [Array.toList_push, List.mem_append, List.mem_singleton] at ht
  rcases ht with ht | rfl
  · exact (h.mono (Nat.le_succ _)).closed t ht
  · have hmem : t ∈ Scan.runs ⟨ended, some t⟩ := by simp [Scan.runs_of_run]
    have hend := ((hf.covers t.2).mp ⟨t, hmem, hf.nonempty t hmem, Nat.le_refl _⟩).2
    exact ⟨d, lt_iff_toNat.mpr hend, Nat.lt_succ_self _, hp⟩

theorem Scan.IsSplit.step {s : Scan} (h : s.IsSplit p d.toNat) (hf : s.Finds p d.toNat) :
    (s.step p d).IsSplit p (d.toNat + 1) := by
  obtain ⟨ended, run⟩ := s
  rw [Scan.step]
  by_cases hp : p d = true
  · rw [if_pos hp]
    cases run with
    | some r => exact h.extend
    | none => exact h.start
  · rw [if_neg hp]
    cases run with
    | some r => exact h.finish hf hp
    | none => exact h.mono (Nat.le_succ _)

theorem Scan.IsSplit.stepCode {s : Scan} (h : s.IsSplit p n) (hf : s.Finds p n) :
    (s.stepCode p n).IsSplit p (n + 1) := by
  rw [Scan.stepCode]
  by_cases hn : n.isValidChar
  · rw [dif_pos hn]
    exact Scan.IsSplit.step (d := Char.ofNatAux n hn) h hf
  · rw [dif_neg hn]
    exact h.mono (Nat.le_succ n)

theorem isSplit_fold (p : Char → Bool) (n : Nat) :
    (Nat.fold n (fun m _ s => Scan.stepCode p s m) {}).IsSplit p n := by
  induction n with
  | zero => exact ⟨by simp [Scan.runs], by simp⟩
  | succ n ih =>
    rw [Nat.fold_succ]
    exact ih.stepCode (finds_fold p n)

theorem Parted.gap {t : CharRange} (h : Parted p r t) : r.2.toNat + 2 ≤ t.1.toNat := by
  obtain ⟨c, hrc, hct, -⟩ := h
  rw [lt_iff_toNat] at hrc hct
  omega

theorem separated_runsOf (p : Char → Bool) : Separated (runsOf p) :=
  ⟨(finds_fold p _).nonempty, (isSplit_fold p _).apart.imp Parted.gap⟩

/-- Characters with `p` and only such between them lie in one run. -/
theorem exists_mem_runsOf {a b : Char} (hab : a ≤ b) (h : ∀ c, a ≤ c → c ≤ b → p c = true) :
    ∃ r ∈ runsOf p, r.1 ≤ a ∧ b ≤ r.2 := by
  obtain ⟨r, hr, hra, har⟩ := (covers_runsOf p a).mpr (h a (Nat.le_refl _) hab)
  obtain ⟨t, ht, htb, hbt⟩ := (covers_runsOf p b).mpr (h b hab (Nat.le_refl _))
  by_cases hrt : r = t
  · exact ⟨r, hr, hra, hrt ▸ hbt⟩
  -- one of the two comes first, and what parts them would lie between `a` and `b`
  have hsymm : Std.Symm fun r t => Parted p r t ∨ Parted p t r := ⟨fun _ _ => Or.symm⟩
  have hsplit : (runsOf p).Pairwise fun r t => Parted p r t ∨ Parted p t r := (isSplit_fold p _).apart.imp Or.inl
  rcases hsplit.forall hr ht hrt with ⟨c, hrc, hct, hp⟩ | ⟨c, htc, hcr, -⟩
  · simp only [le_iff_toNat, lt_iff_toNat] at *
    exact absurd (h c (by omega) (by omega)) hp
  · simp only [le_iff_toNat, lt_iff_toNat] at *
    omega

/-- A set lists the maximal runs of its members, and nothing else, in order. -/
structure ListsRuns (S : CharSet) (member : Char → Prop) : Prop where
  separated : S.IsSeparated
  contains_iff : ∀ c, S.contains c = true ↔ member c
  joined : ∀ a b, a ≤ b → (∀ c, a ≤ c → c ≤ b → member c) → ∃ r ∈ S.ranges, r.1 ≤ a ∧ b ≤ r.2

/-- The runs are listed as they have been found: nothing is left to be joined. -/
theorem ranges_ofRanges_runsOf (p : Char → Bool) : (ofRanges (runsOf p)).ranges.toList = runsOf p := by
  rw [toList_ranges_ofRanges, (separated_runsOf p).normalize_eq]

theorem listsRuns_runsOf (p : Char → Bool) : (ofRanges (runsOf p)).ListsRuns fun c => p c = true := by
  have hne := (separated_runsOf p).nonempty
  refine ⟨isSeparated_ofRanges hne, fun c => ?_, fun a b hab h => ?_⟩
  · rw [contains_ofRanges hne, covers_runsOf]
  · obtain ⟨r, hr, hrun⟩ := exists_mem_runsOf hab h
    rw [← ranges_ofRanges_runsOf, Array.mem_toList_iff] at hr
    exact ⟨r, hr, hrun⟩

theorem listsRuns_ofCategoryIn (category : Char → GeneralCategory) {code : String} (hcode : isCategoryCode code = true) :
    ∃ S, ofCategoryIn category code = some S ∧ S.ListsRuns fun c => (category c).inClass code = true := by
  have hne : (categoriesOf code).isEmpty = false := by simpa [isCategoryCode] using hcode
  have hin (c : Char) : (categoriesOf code).contains (category c) = true ↔ (category c).inClass code = true := by
    rw [List.contains_iff_mem, mem_categoriesOf]
  refine ⟨_, by rw [ofCategoryIn, hne, if_neg Bool.false_ne_true], ?_⟩
  simpa only [hin] using listsRuns_runsOf fun c => (categoriesOf code).contains (category c)

theorem ofCategoryIn_eq_none (category : Char → GeneralCategory) {code : String} (hcode : ¬isCategoryCode code = true) :
    ofCategoryIn category code = none := by
  have hempty : (categoriesOf code).isEmpty = true := by simpa [isCategoryCode] using hcode
  rw [ofCategoryIn, if_pos hempty]

/-- Whatever category each character has, the set of a category code lists the runs of the characters with its
categories; what is no category code has no set. -/
theorem ofCategoryIn_exact (category : Char → GeneralCategory) (code : String) :
    if isCategoryCode code then
      ∃ S, ofCategoryIn category code = some S ∧ S.ListsRuns fun c => (category c).inClass code = true
    else ofCategoryIn category code = none := by
  split
  · next hcode => exact listsRuns_ofCategoryIn category hcode
  · next hcode => exact ofCategoryIn_eq_none category hcode

/-- The category codes: the classes, the categories and the cased letters. -/
example : (["L", "M", "N", "P", "S", "Z", "C", "Lu", "Ll", "Lt", "Lm", "Lo", "LC", "Mn", "Mc", "Me", "Nd", "Nl", "No",
      "Pc", "Pd", "Ps", "Pe", "Pi", "Pf", "Po", "Sm", "Sc", "Sk", "So", "Zs", "Zl", "Zp", "Cc", "Cf", "Cs", "Co",
      "Cn"].all isCategoryCode) = true ∧ isCategoryCode "Lx" = false := by
  decide +kernel

end Ixml.CharSet
