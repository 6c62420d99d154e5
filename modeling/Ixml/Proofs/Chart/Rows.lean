import Ixml.Proofs.Chart.Items

/-!
# Rows of a chart

A row is closed by adding what its items call for until there is nothing new, which ends because there are only so
many items that are valid (`close_closed`). If the rows before hold the valid items of their places then so does a
row that has been closed: with items that are valid it calls for valid ones only (`isValid_of_mem_consequences`), and
whatever is valid is called for, along the derivation of the symbols before its dot (`isRow_of_closed`).
-/

namespace Ixml.Chart

variable {B : Bnf} {rules : Array Rule} {k fuel bound : Nat} {rows : Array Row} {row origin : Row} {i j : Item}
  {is items : List Item} {P : Item → Prop} {n : String} {a : Attributes} {s : Symbol} {ss ts : List Symbol}
  {u v w : List Char} {c : Char} {r : Rule}

/-! ### Adding items -/

theorem mem_add : j ∈ add row i ↔ j ∈ row ∨ j = i := by
  rw [add]
  split
  · next h =>
    have hi : i ∈ row := Array.contains_iff_mem.mp h
    exact ⟨Or.inl, fun hj => hj.elim id (· ▸ hi)⟩
  · exact Array.mem_push

theorem mem_foldl_add : j ∈ is.foldl add row ↔ j ∈ row ∨ j ∈ is := by
  induction is generalizing row with
  | nil => simp
  | cons i is ih => rw [List.foldl_cons, ih, mem_add, List.mem_cons, or_assoc]

theorem nodup_add (h : row.toList.Nodup) (i : Item) : (add row i).toList.Nodup := by
  rw [add]
  split
  · exact h
  · next hi =>
    have hi : i ∉ row := fun hmem => hi (Array.contains_iff_mem.mpr hmem)
    rw [Array.toList_push, List.nodup_append_comm]
    exact List.nodup_cons.mpr ⟨by simpa using hi, h⟩

theorem nodup_foldl_add (h : row.toList.Nodup) (is : List Item) : (is.foldl add row).toList.Nodup := by
  induction is generalizing row with
  | nil => exact h
  | cons i is ih => exact ih (nodup_add h i)

theorem size_le_foldl_add (row : Row) (is : List Item) : row.size ≤ (is.foldl add row).size := by
  induction is generalizing row with
  | nil => exact Nat.le_refl _
  | cons i is ih =>
    refine Nat.le_trans ?_ (ih (add row i))
    rw [add]
    split
    · exact Nat.le_refl _
    · rw [Array.size_push]
      exact Nat.le_succ _

/-- A row that does not grow holds all that is added. -/
theorem mem_of_size_foldl_add (h : (is.foldl add row).size = row.size) (hj : j ∈ is) : j ∈ row := by
  induction is with
  | nil => cases hj
  | cons i is ih =>
    rw [List.foldl_cons] at h
    by_cases hi : row.contains i = true
    · rw [add, if_pos hi] at h
      rcases List.mem_cons.mp hj with rfl | hj
      · exact Array.contains_iff_mem.mp hi
      · exact ih h hj
    · have hsize := size_le_foldl_add (row.push i) is
      rw [add, if_neg hi] at h
      rw [h, Array.size_push] at hsize
      omega

/-! ### Closing a row -/

/-- A row holds what its items call for. -/
def IsClosed (rules : Array Rule) (k : Nat) (rows : Array Row) (row : Row) : Prop :=
  ∀ i ∈ row, ∀ j ∈ consequences rules k rows row i, j ∈ row

/-- A row is closed in the rounds that are allowed, if all items satisfy something that only so many can. -/
theorem close_closed (hP : ∀ row : Row, (∀ i ∈ row, P i) → ∀ i ∈ row, ∀ j ∈ consequences rules k rows row i, P j)
    (hbound : ∀ items : List Item, items.Nodup → (∀ i ∈ items, P i) → items.length ≤ bound)
    (hnodup : row.toList.Nodup) (hrow : ∀ i ∈ row, P i) (hfuel : bound < row.size + fuel) :
    IsClosed rules k rows (close rules k rows fuel row) ∧ (∀ i ∈ row, i ∈ close rules k rows fuel row) ∧
      ∀ i ∈ close rules k rows fuel row, P i := by
  induction fuel generalizing row with
  | zero =>
    have := hbound row.toList hnodup (by simpa using hrow)
    rw [Array.length_toList] at this
    omega
  | succ fuel ih =>
    rw [close]
    have hadded (j : Item) : j ∈ row.toList.flatMap (consequences rules k rows row) ↔
        ∃ i ∈ row, j ∈ consequences rules k rows row i := by
      simp [List.mem_flatMap]
    split
    · next hsize =>
      refine ⟨fun i hi j hj => ?_, fun i hi => hi, hrow⟩
      exact mem_of_size_foldl_add hsize ((hadded j).mpr ⟨i, hi, hj⟩)
    · next hsize =>
      have hle := size_le_foldl_add row (row.toList.flatMap (consequences rules k rows row))
      have hgrown : ∀ i ∈ (row.toList.flatMap (consequences rules k rows row)).foldl add row, P i := by
        intro j hj
        rcases mem_foldl_add.mp hj with hj | hj
        · exact hrow j hj
        · obtain ⟨i, hi, hj⟩ := (hadded j).mp hj
          exact hP row hrow i hi j hj
      obtain ⟨hclosed, hsub, hall⟩ := ih (nodup_foldl_add hnodup _) hgrown (by omega)
      exact ⟨hclosed, fun i hi => hsub i (mem_foldl_add.mpr (.inl hi)), hall⟩

/-- The items with a rule of the grammar, a dot in it and a start up to `k`. -/
def possibleItems (B : Bnf) (k : Nat) : List Item :=
  B.rules.zipIdx.flatMap fun p =>
    (List.range (p.1.rhs.length + 1)).flatMap fun dot => (List.range (k + 1)).map fun start => ⟨p.2, dot, start⟩

theorem length_possibleItems (B : Bnf) (k : Nat) : (possibleItems B k).length = itemCount B.rules.toArray k := by
  have hfold (m : Nat) (rs : List Rule) :
      rs.foldl (fun n r => n + (r.rhs.length + 1)) m = m + (rs.map fun r => r.rhs.length + 1).sum := by
    induction rs generalizing m with
    | nil => simp
    | cons r rs ih => rw [List.foldl_cons, ih, List.map_cons, List.sum_cons, Nat.add_assoc]
  have hsum (start : Nat) (rs : List Rule) :
      ((rs.zipIdx start).map fun p => (p.1.rhs.length + 1) * (k + 1)).sum =
        (rs.map fun r => r.rhs.length + 1).sum * (k + 1) := by
    induction rs generalizing start with
    | nil => simp
    | cons r rs ih =>
      rw [List.zipIdx_cons, List.map_cons, List.sum_cons, ih, List.map_cons, List.sum_cons, Nat.add_mul (_ + 1)]
  rw [itemCount, List.foldl_toArray, hfold, Nat.zero_add, ← hsum 0, possibleItems, List.length_flatMap]
  simp [List.length_flatMap]

theorem Item.IsValid.mem_possibleItems (h : i.IsValid B u) : i ∈ possibleItems B u.length := by
  obtain ⟨r, v, w, hr, hdot, -, -, hstart, rfl⟩ := h
  refine List.mem_flatMap.mpr ⟨(r, i.rule), List.mem_zipIdx_iff_getElem?.mpr hr, ?_⟩
  refine List.mem_flatMap.mpr ⟨i.dot, List.mem_range.mpr (Nat.lt_succ_of_le hdot), List.mem_map.mpr ⟨i.start, ?_, rfl⟩⟩
  rw [List.mem_range, List.length_append]
  omega

theorem length_le_itemCount (hnodup : items.Nodup) (h : ∀ i ∈ items, i.IsValid B u) :
    items.length ≤ itemCount B.rules.toArray u.length := by
  rw [← length_possibleItems]
  exact (List.subperm_of_subset hnodup fun i hi => (h i hi).mem_possibleItems).length_le

/-! ### What items call for -/

theorem mem_predict : j ∈ predict B.rules.toArray k n ↔ ∃ r, j.rule? B = some r ∧ r.name = n ∧ j = ⟨j.rule, 0, k⟩ := by
  simp only [predict, List.mem_map, List.mem_filter, List.mem_range, beq_iff_eq, Option.map_eq_some_iff, Item.rule?,
    List.getElem?_toArray, List.size_toArray]
  constructor
  · rintro ⟨index, ⟨-, r, hr, hname⟩, rfl⟩
    exact ⟨r, hr, hname, rfl⟩
  · rintro ⟨r, hr, hname, hj⟩
    exact ⟨j.rule, ⟨(List.getElem?_eq_some_iff.mp hr).1, r, hr, hname⟩, hj.symm⟩

theorem mem_complete : j ∈ complete rules origin n ↔
    ∃ i ∈ origin, ∃ a, next? rules i = some (.nonterminal n a) ∧ j = i.shift := by
  have hname (s : Symbol) : s.name? = some n ↔ ∃ a, s = .nonterminal n a := by
    cases s <;> simp [Symbol.name?]
  simp only [complete, List.mem_map, List.mem_filter, beq_iff_eq, Option.bind_eq_some_iff, hname, Array.mem_toList_iff]
  constructor
  · rintro ⟨i, ⟨hi, s, hs, a, rfl⟩, rfl⟩
    exact ⟨i, hi, a, hs, rfl⟩
  · rintro ⟨i, hi, a, hs, rfl⟩
    exact ⟨i, ⟨hi, _, hs, a, rfl⟩, rfl⟩

theorem mem_scan : j ∈ scan rules row c ↔
    ∃ i ∈ row, ∃ s, next? rules i = some s ∧ s.accepts c = true ∧ j = i.shift := by
  simp only [scan, List.mem_map, List.mem_filter, Array.mem_toList_iff, Option.any_eq_true]
  constructor
  · rintro ⟨i, ⟨hi, s, hs, hc⟩, rfl⟩
    exact ⟨i, hi, s, hs, hc, rfl⟩
  · rintro ⟨i, hi, s, hs, hc, rfl⟩
    exact ⟨i, ⟨hi, s, hs, hc⟩, rfl⟩

/-- A row holds the items that are valid after the characters `u`. -/
def IsRow (B : Bnf) (u : List Char) (row : Row) : Prop :=
  ∀ i, i ∈ row ↔ i.IsValid B u

/-- The rows before that after `u` hold the items that are valid at their places. -/
def AreRowsBefore (B : Bnf) (u : List Char) (rows : Array Row) : Prop :=
  ∀ v, v <+: u → v.length < u.length → IsRow B v (rows.getD v.length #[])

theorem isValid_of_mem_predict (h : B.Calls u n) (hj : j ∈ predict B.rules.toArray u.length n) : j.IsValid B u := by
  obtain ⟨r, hr, rfl, hj'⟩ := mem_predict.mp hj
  rw [hj']
  exact isValid_of_calls h hr

theorem isValid_of_mem_scan (hrow : ∀ i ∈ row, i.IsValid B u) (hj : j ∈ scan B.rules.toArray row c) :
    j.IsValid B (u ++ [c]) := by
  obtain ⟨i, hi, s, hs, hc, rfl⟩ := mem_scan.mp hj
  cases s with
  | nonterminal n a => cases hc
  | terminal m a => exact (hrow i hi).shift hs (Bnf.generates_terminal hc)

/-- Valid items call for valid items. -/
theorem isValid_of_mem_consequences (hrows : AreRowsBefore B u rows) (hrow : ∀ i ∈ row, i.IsValid B u) (hi : i ∈ row)
    (hj : j ∈ consequences B.rules.toArray u.length rows row i) : j.IsValid B u := by
  have hvalid := hrow i hi
  rw [consequences] at hj
  split at hj
  · next n a hs => exact isValid_of_mem_predict (hvalid.calls hs) hj
  · cases hj
  · next hs =>
    obtain ⟨r, v, w, hr, hdot, hcalls, hw, hstart, rfl⟩ := hvalid
    rw [next?_eq hr, List.getElem?_eq_none_iff] at hs
    rw [List.take_of_length_le hs] at hw
    obtain ⟨i', hi', a, hs', rfl⟩ := mem_complete.mp hj
    rw [nameOf_eq hr] at hs'
    have hgen : B.Generates [.nonterminal r.name a] w := Bnf.generates_nonterminal
      (Bnf.mem_language_iff.mpr ⟨r, Bnf.mem_rulesFor_iff.mpr ⟨mem_rules_of_rule? hr, rfl⟩, hw⟩)
    have horigin : i'.IsValid B v := by
      rw [hstart] at hi'
      split at hi'
      · next hlen =>
        obtain rfl : w = [] := by simpa using hlen
        rw [List.append_nil] at hrow
        exact hrow i' hi'
      · next hlen =>
        refine (hrows v (List.prefix_append v w) ?_ i').mp hi'
        rw [List.length_append] at hlen ⊢
        omega
    exact horigin.shift hs' hgen

/-! ### Closed rows hold all valid items -/

section Closed

/-- The row after a beginning of `u`, where the row after `u` itself is `row`. -/
def rowAt (u : List Char) (rows : Array Row) (row : Row) (v : List Char) : Row :=
  if v.length = u.length then row else rows.getD v.length #[]

variable (hrows : AreRowsBefore B u rows) (hrow : ∀ i ∈ row, i.IsValid B u)
  (hclosed : IsClosed B.rules.toArray u.length rows row)
  (hscan : ∀ v c, u = v ++ [c] → ∀ j ∈ scan B.rules.toArray (rows.getD v.length #[]) c, j ∈ row)
include hrows hrow hclosed hscan

omit hrows hrow hclosed hscan in
theorem rowAt_self : rowAt u rows row u = row := if_pos rfl

omit hclosed hscan in
theorem isValid_of_mem_rowAt (hv : v <+: u) (hi : i ∈ rowAt u rows row v) : i.IsValid B v := by
  rw [rowAt] at hi
  split at hi
  · next hlen =>
    obtain rfl := hv.eq_of_length hlen
    exact hrow i hi
  · next hlen => exact (hrows v hv (Nat.lt_of_le_of_ne hv.length_le hlen) i).mp hi

omit hrow hclosed hscan in
theorem mem_rowAt_of_isValid (hv : v <+: u) (hlt : v.length < u.length) (hi : i.IsValid B v) :
    i ∈ rowAt u rows row v := by
  rw [rowAt, if_neg (Nat.ne_of_lt hlt)]
  exact (hrows v hv hlt i).mpr hi

omit hclosed hscan in
theorem shift_mem_rowAt (hu : v ++ w <+: u) (hlt : (v ++ w).length < u.length) (hi : i ∈ rowAt u rows row v)
    (hs : next? B.rules.toArray i = some s) (hw : B.Generates [s] w) : i.shift ∈ rowAt u rows row (v ++ w) := by
  have hvalid := isValid_of_mem_rowAt hrows hrow ((List.prefix_append v w).trans hu) hi
  exact mem_rowAt_of_isValid hrows hu hlt (hvalid.shift hs hw)

omit hscan in
theorem predicted_mem_rowAt (hv : v <+: u) (hi : i ∈ rowAt u rows row v)
    (hs : next? B.rules.toArray i = some (.nonterminal n a)) (hj : j ∈ predict B.rules.toArray v.length n) :
    j ∈ rowAt u rows row v := by
  have hvalid := isValid_of_mem_rowAt hrows hrow hv hi
  rcases Nat.lt_or_eq_of_le hv.length_le with hlt | hlen
  · exact mem_rowAt_of_isValid hrows hv hlt (isValid_of_mem_predict (hvalid.calls hs) hj)
  · obtain rfl := hv.eq_of_length hlen
    rw [rowAt_self] at hi ⊢
    refine hclosed i hi j ?_
    rw [consequences, hs]
    exact hj

omit hclosed in
/-- An item goes on over a character that it waits for. -/
theorem scanned_mem_rowAt {m : Matcher} (hv : v ++ [c] <+: u) (hi : i ∈ rowAt u rows row v)
    (hs : next? B.rules.toArray i = some (.terminal m a)) (hc : m.accepts c = true) :
    i.shift ∈ rowAt u rows row (v ++ [c]) := by
  rcases Nat.lt_or_eq_of_le hv.length_le with hlt | hlen
  · exact shift_mem_rowAt hrows hrow hv hlt hi hs (Bnf.generates_terminal hc)
  · have hlt : v.length < u.length := by
      rw [← hlen, List.length_append, List.length_singleton]
      omega
    rw [rowAt, if_neg (Nat.ne_of_lt hlt)] at hi
    rw [rowAt, if_pos hlen]
    exact hscan v c (hv.eq_of_length hlen).symm _ (mem_scan.mpr ⟨i, hi, _, hs, hc, rfl⟩)

omit hrows hrow hscan in
/-- An item goes on over a nonterminal in the row where a rule for it is complete that began where the item was. -/
theorem completed_mem (hi : i ∈ rowAt u rows row v) (hs : next? B.rules.toArray i = some (.nonterminal r.name a))
    (hj : j ∈ row) (hr : j.rule? B = some r) (hdot : j.dot = r.rhs.length) (hstart : j.start = v.length) :
    i.shift ∈ row := by
  have hend : next? B.rules.toArray j = none := by
    rw [next?_eq hr, hdot, List.getElem?_eq_none (Nat.le_refl _)]
  refine hclosed j hj _ ?_
  rw [consequences, hend, hstart, nameOf_eq hr]
  exact mem_complete.mpr ⟨i, hi, a, hs, rfl⟩

/-- An item goes on to the end of `u` over symbols that generate the rest of it. -/
theorem shifted_mem (h : B.Generates ss w) (hu : v ++ w = u) (hi : i ∈ rowAt u rows row v) (hr : i.rule? B = some r)
    (hss : r.rhs.drop i.dot = ss ++ ts) : { i with dot := i.dot + ss.length } ∈ row := by
  induction h generalizing v i r ts with
  | nil =>
    rw [List.append_nil] at hu
    subst hu
    rwa [rowAt_self] at hi
  | @terminal m a c ss w hc hw ih =>
    obtain ⟨hs, hdrop⟩ := next?_of_drop hr hss
    have hvc : (v ++ [c]) ++ w = u := by rw [← hu, List.append_assoc, List.singleton_append]
    have hend := ih hvc (scanned_mem_rowAt hrows hrow hscan ⟨w, hvc⟩ hi hs hc) hr hdrop
    rwa [Item.shift, Nat.add_right_comm, Nat.add_assoc] at hend
  | @nonterminal n a r' ss x w hr' hx hw ihx ih =>
    obtain ⟨hs, hdrop⟩ := next?_of_drop hr hss
    have hvx : (v ++ x) ++ w = u := by rw [← hu, List.append_assoc]
    have hbegins : v ++ x <+: u := ⟨w, hvx⟩
    have hshift : i.shift ∈ rowAt u rows row (v ++ x) := by
      rcases Nat.lt_or_eq_of_le hbegins.length_le with hlt | hlen
      · have hgen := Bnf.mem_language_iff.mpr ⟨r', hr', hx⟩
        exact shift_mem_rowAt hrows hrow hbegins hlt hi hs (Bnf.generates_nonterminal hgen)
      · -- the rule for the nonterminal began in the row of the item, and comes to its end in the row itself
        obtain ⟨hmem, rfl⟩ := Bnf.mem_rulesFor_iff.mp hr'
        obtain ⟨index, hindex⟩ := List.getElem?_of_mem hmem
        have hrule (dot : Nat) : Item.rule? B ⟨index, dot, v.length⟩ = some r' := hindex
        have hbegun := predicted_mem_rowAt hrows hrow hclosed ⟨_, hu⟩ hi hs (mem_predict.mpr ⟨r', hrule 0, rfl, rfl⟩)
        have hcomplete := ihx (hbegins.eq_of_length hlen) hbegun (hrule 0) (List.append_nil _).symm
        rw [rowAt, if_pos hlen]
        exact completed_mem hclosed hi hs hcomplete (hrule _) (Nat.zero_add _) rfl
    have hend := ih hvx hshift hr hdrop
    rwa [Item.shift, Nat.add_right_comm, Nat.add_assoc] at hend

variable (hstart : u = [] → ∀ j ∈ predict B.rules.toArray 0 B.startName, j ∈ row)
include hstart

theorem begun_mem_rowAt (h : B.Calls v n) (hv : v <+: u) (hj : j ∈ predict B.rules.toArray v.length n) :
    j ∈ rowAt u rows row v := by
  induction h generalizing j with
  | start =>
    rcases Nat.lt_or_eq_of_le hv.length_le with hlt | hlen
    · exact mem_rowAt_of_isValid hrows hv hlt (isValid_of_mem_predict .start hj)
    · rw [rowAt, if_pos hlen]
      exact hstart (hv.eq_of_length hlen).symm j hj
  | @next v w n r ss ts a hr h hrhs hw ih =>
    rcases Nat.lt_or_eq_of_le hv.length_le with hlt | hlen
    · exact mem_rowAt_of_isValid hrows hv hlt (isValid_of_mem_predict (.next hr h hrhs hw) hj)
    · obtain ⟨index, hindex⟩ := List.getElem?_of_mem hr
      have hrule (dot : Nat) : Item.rule? B ⟨index, dot, v.length⟩ = some r := hindex
      have hbegun := ih ((List.prefix_append v w).trans hv) (mem_predict.mpr ⟨r, hrule 0, rfl, rfl⟩)
      have hwaits := shifted_mem hrows hrow hclosed hscan hw (hv.eq_of_length hlen) hbegun (hrule 0) hrhs
      have hs : next? B.rules.toArray ⟨index, 0 + ss.length, v.length⟩ = some (.nonterminal n a) := by
        rw [next?_eq (hrule _), hrhs, Nat.zero_add]
        simp
      rw [rowAt, if_pos hlen]
      refine hclosed _ hwaits j ?_
      rw [consequences, hs, ← hlen]
      exact hj

theorem isRow_of_closed : IsRow B u row := fun i => by
  refine ⟨hrow i, ?_⟩
  rintro ⟨r, v, w, hr, hdot, hcalls, hw, hi, rfl⟩
  have hpredict : ⟨i.rule, 0, v.length⟩ ∈ predict B.rules.toArray v.length r.name := mem_predict.mpr ⟨r, hr, rfl, rfl⟩
  have hbegun := begun_mem_rowAt hrows hrow hclosed hscan hstart hcalls (List.prefix_append v w) hpredict
  have hend := shifted_mem hrows hrow hclosed hscan hw rfl hbegun hr (List.take_append_drop i.dot r.rhs).symm
  rwa [List.length_take, Nat.min_eq_left hdot, Nat.zero_add, ← hi] at hend

end Closed

/-- A row begins with the items that go on over the character before, or with the rules of the start symbol. It then
holds the items that are valid at its place. -/
theorem isRow_rowFrom (hrows : AreRowsBefore B u rows) (hitems : ∀ i ∈ items, i.IsValid B u)
    (hscan : ∀ v c, u = v ++ [c] → ∀ j ∈ scan B.rules.toArray (rows.getD v.length #[]) c, j ∈ items)
    (hstart : u = [] → ∀ j ∈ predict B.rules.toArray 0 B.startName, j ∈ items) :
    IsRow B u (rowFrom B.rules.toArray u.length rows items) := by
  have hmem (j : Item) : j ∈ items.foldl add #[] ↔ j ∈ items := by simp [mem_foldl_add]
  obtain ⟨hclosed, hsub, hvalid⟩ := close_closed (fun row hrow i hi j => isValid_of_mem_consequences hrows hrow hi)
    (fun items => length_le_itemCount) (nodup_foldl_add List.nodup_nil items) (fun i hi => hitems i ((hmem i).mp hi))
    (Nat.lt_of_lt_of_le (Nat.lt_succ_self _) (Nat.le_add_left _ _))
  exact isRow_of_closed hrows hvalid hclosed (fun v c hu j hj => hsub j ((hmem j).mpr (hscan v c hu j hj)))
    fun hu j hj => hsub j ((hmem j).mpr (hstart hu j hj))

end Ixml.Chart
