import Ixml.Proofs.Chart.Rows
import Mathlib.Data.String.Basic
import Mathlib.Order.Bounds.Defs

/-!
# Failures are located exactly

The rows for an input end with the first that is empty. So the last row that is not stands after the longest beginning
of the input that is the beginning of a sentence (`exists_stopsAt`), and its next terminals are those that are reported
(`failure_exact`).
-/

namespace Ixml

/-! ### Positions -/

/-- The line is one more than the number of line feeds before, and the column one more than the number of characters
since the last of them. -/
theorem Text.Position.afterAll_start (cs : List Char) :
    Position.start.afterAll cs = ⟨cs.count '\n' + 1, (cs.reverse.takeWhile (· != '\n')).length + 1⟩ := by
  induction cs using List.reverseRecOn with
  | nil => rfl
  | append_singleton cs c ih =>
    rw [afterAll_append, ih, afterAll_cons, afterAll_nil, after, List.count_append, List.reverse_append]
    by_cases hc : c = '\n'
    · simp [hc]
    · simp [hc]

theorem Failure.byteLength_eq (cs : List Char) : byteLength cs = (String.ofList cs).utf8ByteSize := by
  have hfold (n : Nat) : cs.foldl (fun n c => n + c.utf8Size) n = n + String.utf8Len cs := by
    induction cs generalizing n with
    | nil => rfl
    | cons c cs ih => rw [List.foldl_cons, ih, String.utf8Len_cons]; omega
  rw [byteLength, hfold, Nat.zero_add, String.utf8ByteSize_ofList]

/-! ### Sorted texts -/

section Reps

variable {α : Type} {x y z : α} {xs : List α}

theorem eraseRepsBy_loop_eq (r : α → α → Bool) (x : α) (xs acc : List α) :
    List.eraseRepsBy.loop r x xs acc = acc.reverse ++ List.eraseRepsBy.loop r x xs [] := by
  induction xs generalizing x acc with
  | nil => simp [List.eraseRepsBy.loop]
  | cons y ys ih =>
    rw [List.eraseRepsBy.loop, List.eraseRepsBy.loop]
    cases r x y with
    | true => exact ih x acc
    | false =>
      dsimp only
      rw [ih y (x :: acc), ih y [x]]
      simp

variable [BEq α]

theorem eraseReps_cons_cons : (x :: y :: xs).eraseReps =
    if x == y then (x :: xs).eraseReps else x :: (y :: xs).eraseReps := by
  simp only [List.eraseReps, List.eraseRepsBy]
  rw [List.eraseRepsBy.loop]
  cases x == y with
  | true => rfl
  | false =>
    dsimp only
    rw [eraseRepsBy_loop_eq]
    rfl

theorem mem_eraseReps [LawfulBEq α] : z ∈ (x :: xs).eraseReps ↔ z ∈ x :: xs := by
  induction xs generalizing x with
  | nil => rfl
  | cons y ys ih =>
    rw [eraseReps_cons_cons]
    split
    · next h =>
      rw [ih, eq_of_beq h]
      simp
    · rw [List.mem_cons, ih, ← List.mem_cons]

theorem pairwise_eraseReps {xs : List String} (h : xs.Pairwise (· ≤ ·)) : xs.eraseReps.Pairwise (· < ·) := by
  rcases xs with _ | ⟨x, xs⟩
  · exact .nil
  induction xs generalizing x with
  | nil => exact List.pairwise_singleton _ _
  | cons y ys ih =>
    obtain ⟨hx, hy⟩ := List.pairwise_cons.mp h
    rw [eraseReps_cons_cons]
    split
    · obtain ⟨hxy, hxs⟩ := List.forall_mem_cons.mp hx
      exact ih x (List.pairwise_cons.mpr ⟨hxs, (List.pairwise_cons.mp hy).2⟩)
    · next hne =>
      refine List.pairwise_cons.mpr ⟨fun z hz => ?_, ih y hy⟩
      have hxy : x < y := lt_of_le_of_ne (hx y (List.mem_cons_self ..)) (by simpa using hne)
      rcases List.mem_cons.mp (mem_eraseReps.mp hz) with rfl | hz
      · exact hxy
      · exact lt_of_lt_of_le hxy ((List.pairwise_cons.mp hy).1 z hz)

end Reps

namespace Failure

variable {f : Failure} {t : String}

theorem mem_permitted : t ∈ f.permitted ↔ t ∈ f.possibleTexts := by
  have hsort : t ∈ f.possibleTexts.mergeSort (fun a b => decide (a ≤ b)) ↔ t ∈ f.possibleTexts := List.mem_mergeSort
  rw [← hsort, permitted]
  generalize f.possibleTexts.mergeSort _ = ts
  cases ts with
  | nil => rfl
  | cons t' ts => exact mem_eraseReps

theorem pairwise_permitted (f : Failure) : f.permitted.Pairwise (· < ·) := by
  have htrans (a b c : String) (hab : decide (a ≤ b) = true) (hbc : decide (b ≤ c) = true) : decide (a ≤ c) = true :=
    decide_eq_true (le_trans (of_decide_eq_true hab) (of_decide_eq_true hbc))
  have htotal (a b : String) : (decide (a ≤ b) || decide (b ≤ a)) = true := by simpa using le_total a b
  have hsort := List.pairwise_mergeSort htrans htotal f.possibleTexts
  exact pairwise_eraseReps (hsort.imp of_decide_eq_true)

theorem permitted_congr {f' : Failure} (h : ∀ t, t ∈ f.possibleTexts ↔ t ∈ f'.possibleTexts) :
    f.permitted = f'.permitted := by
  have hf := pairwise_permitted f
  have hf' := pairwise_permitted f'
  have hperm : f.permitted.Perm f'.permitted := (List.perm_ext_iff_of_nodup (hf.imp ne_of_lt) (hf'.imp ne_of_lt)).mpr
    fun t => by rw [mem_permitted, mem_permitted, h]
  exact hperm.eq_of_pairwise (fun a b _ _ hab hba => absurd hba (lt_asymm hab)) hf hf'

end Failure

namespace Chart

variable {B : Bnf} {rows : Array Row} {row : Row} {cs rest : List Char} {c : Char} {k p : Nat}

/-- Row by row the items that are valid after the beginnings of the input. -/
def IsChart (B : Bnf) (cs : List Char) (rows : Array Row) : Prop :=
  ∀ k < rows.size, IsRow B (cs.take k) (rows.getD k #[])

/-- The last row with items is row `p`: there is an empty one after it, or the input ends there. -/
structure StopsAt (B : Bnf) (cs : List Char) (rows : Array Row) (p : Nat) : Prop where
  chart : IsChart B cs rows
  le : p ≤ cs.length
  isEmpty : (rows.getD p #[]).isEmpty = false
  last : p = cs.length ∧ rows.size = p + 1 ∨ p < cs.length ∧ rows.size = p + 2 ∧ rows.getD (p + 1) #[] = #[]

theorem IsChart.areRowsBefore (h : IsChart B cs rows) (hk : k ≤ cs.length) (hsize : rows.size = k) :
    AreRowsBefore B (cs.take k) rows := by
  intro v hv hlt
  have hlen : (cs.take k).length = k := by rw [List.length_take, Nat.min_eq_left hk]
  have hbegins : v = cs.take v.length := List.prefix_iff_eq_take.mp (hv.trans (List.take_prefix k cs))
  have hrow := h v.length (by omega)
  rwa [← hbegins] at hrow

theorem getD_push_of_lt (hk : k < rows.size) : (rows.push row).getD k #[] = rows.getD k #[] := by
  rw [Array.getD_eq_getD_getElem?, Array.getElem?_push_lt hk, ← Array.getElem?_eq_getElem hk,
    ← Array.getD_eq_getD_getElem?]

theorem IsChart.push (h : IsChart B cs rows) (hrow : IsRow B (cs.take rows.size) row) :
    IsChart B cs (rows.push row) := by
  intro k hk
  rw [Array.size_push] at hk
  rcases Nat.lt_succ_iff_lt_or_eq.mp hk with hlt | rfl
  · rw [getD_push_of_lt hlt]
    exact h k hlt
  · simpa using hrow

theorem IsChart.isRow_next (h : IsChart B cs rows) (hsize : rows.size = k + 1) (hc : cs[k]? = some c) :
    IsRow B (cs.take rows.size)
      (rowFrom B.rules.toArray rows.size rows (scan B.rules.toArray (rows.getD k #[]) c)) := by
  obtain ⟨hlt, rfl⟩ := List.getElem?_eq_some_iff.mp hc
  have htake := List.take_succ_eq_append_getElem hlt
  have hlength : (cs.take (k + 1)).length = k + 1 := by rw [List.length_take, Nat.min_eq_left hlt]
  have hrows : AreRowsBefore B (cs.take (k + 1)) rows := h.areRowsBefore hlt hsize
  have hitems : ∀ i ∈ scan B.rules.toArray (rows.getD k #[]) cs[k], Item.IsValid B (cs.take (k + 1)) i := fun i hi => by
    rw [htake]
    exact isValid_of_mem_scan (fun j hj => (h k (by omega) j).mp hj) hi
  have hnew := isRow_rowFrom hrows hitems (fun v d hv j hj => ?_) fun hnil => ?_
  · rwa [hlength, ← hsize] at hnew
  · obtain ⟨rfl, hd⟩ := List.append_inj' (htake.symm.trans hv) rfl
    cases hd
    rwa [List.length_take, Nat.min_eq_left (Nat.le_of_lt hlt)] at hj
  · rw [hnil] at hlength
    cases hlength

/-- Rows are added up to the first that is empty. -/
theorem exists_stopsAt_extend (h : IsChart B cs rows) (hk : k ≤ cs.length) (hsize : rows.size = k + 1)
    (hrest : cs.drop k = rest) (hne : (rows.getD k #[]).isEmpty = false) :
    ∃ p, StopsAt B cs (extend B.rules.toArray rows (rows.getD k #[]) rest) p := by
  induction rest generalizing rows k with
  | nil =>
    have hle := List.drop_eq_nil_iff.mp hrest
    exact ⟨k, h, hk, hne, .inl ⟨Nat.le_antisymm hk hle, hsize⟩⟩
  | cons c rest ih =>
    have hc : cs[k]? = some c := by rw [← List.head?_drop, hrest, List.head?_cons]
    have hlt := (List.getElem?_eq_some_iff.mp hc).1
    have hrest' : cs.drop (k + 1) = rest := by rw [← List.drop_drop, hrest, List.drop_one, List.tail_cons]
    have hchart := h.push (h.isRow_next hsize hc)
    rw [extend]
    generalize rowFrom B.rules.toArray rows.size rows (scan B.rules.toArray (rows.getD k #[]) c) = new at hchart ⊢
    have hlast : (rows.push new).getD (k + 1) #[] = new := by
      rw [← hsize]
      simp
    have hsize' : (rows.push new).size = k + 2 := by rw [Array.size_push, hsize]
    split
    · next hempty =>
      refine ⟨k, hchart, hk, ?_, .inr ⟨hlt, hsize', hlast.trans (Array.isEmpty_iff.mp hempty)⟩⟩
      rwa [getD_push_of_lt (by omega)]
    · next hempty =>
      have hmore := ih hchart hlt hsize' hrest' (by rw [hlast]; simpa using hempty)
      rwa [hlast] at hmore

/-- In a productive grammar the chart for an input has a last row with items. -/
theorem exists_stopsAt (hB : B.IsProductive) (cs : List Char) : ∃ p, StopsAt B cs (rowsFor B cs) p := by
  have hrow : IsRow B [] (rowFrom B.rules.toArray 0 #[] (predict B.rules.toArray 0 B.startName)) := by
    refine isRow_rowFrom (u := []) (fun v _ hlt => ?_) (fun i hi => isValid_of_mem_predict .start hi) (fun v c hv => ?_)
      fun _ j hj => hj
    · cases hlt
    · cases v <;> cases hv
  obtain ⟨w, hw⟩ := hB.start
  obtain ⟨i, hi⟩ := (exists_isValid_iff hB (u := [])).mpr ⟨w, hw⟩
  have hmem := (hrow i).mpr hi
  rw [rowsFor]
  generalize rowFrom B.rules.toArray 0 #[] (predict B.rules.toArray 0 B.startName) = first at hrow hmem ⊢
  have hchart : IsChart B cs #[first] := by
    intro k hk
    obtain rfl : k = 0 := by simpa using hk
    exact hrow
  refine exists_stopsAt_extend (k := 0) hchart (Nat.zero_le _) rfl rfl ?_
  have hne : first ≠ #[] := by
    rintro rfl
    exact Array.not_mem_empty _ hmem
  simpa using hne

namespace StopsAt

theorem lt_size (h : StopsAt B cs rows p) : p < rows.size := by
  rcases h.last with ⟨-, hsize⟩ | ⟨-, hsize, -⟩ <;> omega

theorem reach_eq (h : StopsAt B cs rows p) : reach rows cs.length = p := by
  have hback : rows.back? = some (rows.getD (rows.size - 1) #[]) := by
    have := h.lt_size
    rw [Array.back?_eq_getElem?, Array.getElem?_eq_getElem (by omega), Array.getD_eq_getD_getElem?,
      Array.getElem?_eq_getElem (by omega), Option.getD_some]
  rw [reach, hback]
  rcases h.last with ⟨hp, hsize⟩ | ⟨-, hsize, hempty⟩
  · rw [hsize, Nat.add_sub_cancel, Option.map_some, h.isEmpty]
    exact hp.symm
  · rw [hsize, show p + 2 - 1 = p + 1 by omega, hempty]
    rfl

/-- Row `p` stands after the longest beginning of the input that is the beginning of a sentence. -/
theorem isGreatest (h : StopsAt B cs rows p) (hB : B.IsProductive) :
    IsGreatest {k | k ≤ cs.length ∧ ∃ v, cs.take k ++ v ∈ B.language B.startName} p := by
  constructor
  · refine ⟨h.le, (exists_isValid_iff hB).mp ?_⟩
    have hne : rows.getD p #[] ≠ #[] := fun he => by
      have := h.isEmpty
      rw [he] at this
      cases this
    obtain ⟨i, hi⟩ := Array.exists_mem_of_ne_empty _ hne
    exact ⟨i, (h.chart p h.lt_size i).mp hi⟩
  · rintro k ⟨hk, v, hv⟩
    by_contra hlt
    rcases h.last with ⟨hp, -⟩ | ⟨-, hsize, hempty⟩
    · omega
    -- what is after `p + 1` characters has the empty row behind it
    have hsplit : cs.take k = cs.take (p + 1) ++ (cs.drop (p + 1)).take (k - (p + 1)) := by
      rw [← List.take_add]
      congr 1
      omega
    rw [hsplit, List.append_assoc] at hv
    obtain ⟨i, hi⟩ := (exists_isValid_iff hB).mpr ⟨_, hv⟩
    have hmem := (h.chart (p + 1) (by omega) i).mpr hi
    rw [hempty] at hmem
    exact Array.not_mem_empty _ hmem

theorem exists_accepts_terminals_iff (h : StopsAt B cs rows p) (hB : B.IsProductive) :
    (∃ s ∈ terminals B.rules.toArray (rows.getD p #[]), s.accepts c = true) ↔
      ∃ v, cs.take p ++ c :: v ∈ B.language B.startName := by
  rw [← exists_accepts_iff hB]
  simp only [terminals, List.mem_filter, List.mem_filterMap, Array.mem_toList_iff]
  constructor
  · rintro ⟨s, ⟨⟨i, hi, hs⟩, -⟩, hc⟩
    exact ⟨i, s, (h.chart p h.lt_size i).mp hi, hs, hc⟩
  · rintro ⟨i, s, hi, hs, hc⟩
    refine ⟨s, ⟨⟨i, (h.chart p h.lt_size i).mpr hi, hs⟩, ?_⟩, hc⟩
    cases s with
    | nonterminal n a => cases hc
    | terminal m a => rfl

/-- The last row of the chart that is reported is row `p`. -/
theorem lastRow?_eq (h : StopsAt B cs rows p) :
    ChartRows.lastRow? (rows.toList.map fun row => row.toList.filterMap (itemIn B.rules.toArray)) =
      some ((rows.getD p #[]).toList.filterMap (itemIn B.rules.toArray)) := by
  have hlt := h.lt_size
  have hlength : p < rows.toList.length := by simpa using hlt
  have hget : rows.toList[p] = rows.getD p #[] := by
    rw [Array.getD_eq_getD_getElem?, Array.getElem?_eq_getElem hlt, Option.getD_some, Array.getElem_toList]
  have hafter : ∀ row ∈ rows.toList.drop (p + 1), row = #[] := by
    rcases h.last with ⟨-, hsize⟩ | ⟨-, hsize, hempty⟩
    · rw [List.drop_eq_nil_of_le (by simp [hsize])]
      exact nofun
    · intro row hrow
      obtain ⟨j, hj, rfl⟩ := List.mem_iff_getElem.mp hrow
      rw [List.length_drop, Array.length_toList] at hj
      obtain rfl : j = 0 := by omega
      rw [List.getElem_drop, Array.getElem_toList, ← hempty, Array.getD_eq_getD_getElem?,
        Array.getElem?_eq_getElem (by omega), Option.getD_some]
  have hsplit : rows.toList = rows.toList.take p ++ rows.getD p #[] :: rows.toList.drop (p + 1) := by
    rw [← hget, ← List.drop_eq_getElem_cons, List.take_append_drop]
  have hne : ((rows.getD p #[]).toList.filterMap (itemIn B.rules.toArray)).isEmpty = false := by
    have hrow : rows.getD p #[] ≠ #[] := fun he => by
      have := h.isEmpty
      rw [he] at this
      cases this
    obtain ⟨i, hi⟩ := Array.exists_mem_of_ne_empty _ hrow
    obtain ⟨r, v, w, hr, -⟩ := (h.chart p hlt i).mp hi
    rw [List.isEmpty_eq_false_iff_exists_mem]
    refine ⟨⟨r, i.dot, i.start⟩, List.mem_filterMap.mpr ⟨i, Array.mem_toList_iff.mpr hi, ?_⟩⟩
    rw [Item.rule?] at hr
    simp [itemIn, hr]
  rw [ChartRows.lastRow?, hsplit, List.map_append, List.map_cons, List.reverse_append, List.reverse_cons,
    List.append_assoc, List.find?_append, List.find?_eq_none.mpr, Option.none_or, List.singleton_append,
    List.find?_cons_of_pos]
  · rw [hne]
    rfl
  · intro items hitems
    obtain ⟨row, hrow, rfl⟩ := List.mem_map.mp (List.mem_reverse.mp hitems)
    rw [hafter row hrow]
    simp

end StopsAt

theorem filterMap_itemIn (rules : Array Rule) (row : Row) :
    (row.toList.filterMap (itemIn rules)).filterMap DottedRule.next? = row.toList.filterMap (next? rules) := by
  rw [List.filterMap_filterMap]
  congr 1
  funext i
  cases h : rules[i.rule]? <;> simp [itemIn, next?, DottedRule.next?, h]

/-- What the diagnosis `f` of an input has to say, where `p` characters are the longest beginning of the input that is
the beginning of a sentence. -/
structure IsExact (B : Bnf) (input : String) (f : Failure) (p : Nat) : Prop where
  longest : IsGreatest {k | k ≤ input.toList.length ∧ ∃ v, input.toList.take k ++ v ∈ B.language B.startName} p
  position : f.position = some (String.ofList (input.toList.take p)).utf8ByteSize
  line : f.line = some ((input.toList.take p).count '\n' + 1)
  column : f.column = some (((input.toList.take p).reverse.takeWhile (· != '\n')).length + 1)
  unexpected : f.unexpected = input.toList[p]?
  terminals : ∀ s ∈ f.predicted, s.isTerminal = true
  accepts : ∀ c, (∃ s ∈ f.predicted, s.accepts c = true) ↔ ∃ v, input.toList.take p ++ c :: v ∈ B.language B.startName
  refuses : ∀ c, f.unexpected = some c → ∀ s ∈ f.predicted, s.accepts c = false
  sorted : f.permitted.Pairwise (· < ·)
  mem_permitted : ∀ t, t ∈ f.permitted ↔ ∃ s ∈ f.predicted, s.text = t
  chart : { f with chart := none }.permitted = f.permitted

/-- In a grammar in which every symbol can be made use of, failures are located exactly where an input stops being the
beginning of a sentence, and the terminals that are reported are just those that can come next. -/
theorem failure_exact (hB : B.IsProductive) (input : String) : ∃ p, IsExact B input (failure B input) p := by
  obtain ⟨p, h⟩ := exists_stopsAt hB input.toList
  have hreach := h.reach_eq
  have hpredicted : (failure B input).predicted =
      Chart.terminals B.rules.toArray ((rowsFor B input.toList).getD p #[]) := by
    rw [failure, hreach]
  have haccepts : ∀ c, (∃ s ∈ (failure B input).predicted, s.accepts c = true) ↔
      ∃ v, input.toList.take p ++ c :: v ∈ B.language B.startName := fun c => by
    rw [hpredicted]
    exact h.exists_accepts_terminals_iff hB
  have hunexpected : (failure B input).unexpected = input.toList[p]? := by
    rw [failure, hreach]
    rfl
  have hpossible : (failure B input).possibleTexts =
      (failure B input).predicted.map Symbol.text ++ (failure B input).predicted.map Symbol.text := by
    have hchart : (failure B input).chart =
      some ((rowsFor B input.toList).toList.map fun row => row.toList.filterMap (itemIn B.rules.toArray)) := rfl
    rw [Failure.possibleTexts, hchart, Option.bind_some, h.lastRow?_eq, Option.getD_some, filterMap_itemIn, hpredicted]
    rfl
  exact ⟨p, {
    longest := h.isGreatest hB
    position := by
      rw [← Failure.byteLength_eq, failure, hreach]
      rfl
    line := by
      rw [failure, hreach]
      show some (Text.positionAt input p).line = _
      rw [Text.positionAt, Text.Position.afterAll_start]
    column := by
      rw [failure, hreach]
      show some (Text.positionAt input p).column = _
      rw [Text.positionAt, Text.Position.afterAll_start]
    unexpected := hunexpected
    terminals := fun s hs => by
      rw [hpredicted] at hs
      exact (List.mem_filter.mp hs).2
    accepts := haccepts
    refuses := fun c hc s hs => by
      rw [hunexpected] at hc
      obtain ⟨hlt, rfl⟩ := List.getElem?_eq_some_iff.mp hc
      by_contra hs'
      obtain ⟨v, hv⟩ := (haccepts _).mp ⟨s, hs, by simpa using hs'⟩
      have hle := (h.isGreatest hB).2 ⟨hlt, v, by rwa [List.take_succ_eq_append_getElem hlt, List.append_assoc]⟩
      omega
    sorted := Failure.pairwise_permitted _
    mem_permitted := fun t => by
      rw [Failure.mem_permitted, hpossible, List.mem_append, or_self, List.mem_map]
    chart := by
      refine Failure.permitted_congr fun t => ?_
      rw [hpossible, List.mem_append, or_self, Failure.possibleTexts]
      simp }⟩

/-- A sentence is an `a`, any number of `c` and a `b`; what stands for the `c` may be empty, and stands there twice. -/
def gapBnf : Bnf where
  rules := [⟨.nonterminal "s" {}, [.terminal (.char 'a') {}, .nonterminal "e" {}, .nonterminal "e" {},
      .terminal (.char 'b') {}]⟩,
    ⟨.nonterminal "e" {}, []⟩,
    ⟨.nonterminal "e" {}, [.terminal (.char 'c') {}, .nonterminal "e" {}]⟩]
  start := .nonterminal "s" {}

theorem isProductive_gapBnf : gapBnf.IsProductive := by
  have he : [] ∈ gapBnf.language "e" :=
    Bnf.mem_language_iff.mpr ⟨⟨.nonterminal "e" {}, []⟩, by decide, .nil⟩
  have hs : ['a', 'b'] ∈ gapBnf.language gapBnf.startName := by
    refine Bnf.mem_language_iff.mpr ⟨⟨.nonterminal "s" {}, [.terminal (.char 'a') {}, .nonterminal "e" {},
      .nonterminal "e" {}, .terminal (.char 'b') {}]⟩, by decide, .terminal (by decide) ?_⟩
    have hempty := Bnf.generates_nonterminal (a := {}) he
    exact hempty.append (hempty.append (Bnf.generates_terminal (by decide)))
  refine ⟨⟨_, hs⟩, fun r hr n a hn => ?_, fun r hr m a hm => ?_⟩
  · have hname : n = "e" := by
      simp only [gapBnf, List.mem_cons, List.not_mem_nil, or_false] at hr
      rcases hr with rfl | rfl | rfl <;> simp at hn <;> exact hn.1
    exact ⟨[], hname ▸ he⟩
  · simp only [gapBnf, List.mem_cons, List.not_mem_nil, or_false] at hr
    rcases hr with rfl | rfl | rfl <;> simp at hm
    · rcases hm with ⟨rfl, -⟩ | ⟨rfl, -⟩
      · exact ⟨'a', by decide⟩
      · exact ⟨'b', by decide⟩
    · exact ⟨'c', by simp [hm.1, Matcher.accepts]⟩

theorem failure_exact_gap : gapBnf.IsProductive ∧ ∃ p, IsExact gapBnf "acx" (failure gapBnf "acx") p :=
  ⟨isProductive_gapBnf, failure_exact isProductive_gapBnf "acx"⟩

example : (failure gapBnf "acx").position = some 2 := by decide +kernel

end Chart

end Ixml
