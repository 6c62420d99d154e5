import Ixml.CharSet.Category
import Ixml.Proofs.Store.Layout

/-!
# The shape of a grammar

Which kinds of nodes may stand below which (`Construct.fits`). Whatever is read from a text, once its
pragmas are understood, has this shape, and so has every later stage of it. What can be asked of one node
and the kinds of its children is asked of all nodes of a tree by `Tree.Every`, and a layout may give way to
another wherever both are compounds or factors (`Layout.Every.fill_congr`, `Construct.fits_congr`).
-/

namespace Ixml

namespace Construct

/-- What a BNF rule can hold. -/
def isFlat : Construct → Bool
  | nonterminal .. | literal .. | insertion _ | inclusion _ | exclusion _ => true
  | _ => false

/-- A group, a repetition or an option. -/
def isCompound : Construct → Bool
  | alts | repeat0 | repeat1 | option => true
  | _ => false

/-- What can stand in an alternative. -/
def isFactor (k : Construct) : Bool :=
  k.isFlat || k.isCompound

/-- What can stand in a set. -/
def isMember : Construct → Bool
  | literal .. | range .. => true
  | charClass code => CharSet.isCategoryCode code
  | _ => false

/-- A member of a set admits a character. -/
def Admits : Construct → Char → Prop
  | literal _ value, c => c ∈ value.text.toList
  | range a b, c => a ≤ c ∧ c ≤ b
  | charClass code, c => (Unicode.GeneralCategory.ofChar c).inClass code = true
  | _, _ => False

def isVersion : Construct → Bool
  | version _ => true
  | _ => false

/-- What stands right below the root. -/
def isTop (k : Construct) : Bool :=
  k.isRule || k == prolog

/-- A repetition, an option or a separator: what stands right below it is a factor. -/
def hasFactor : Construct → Bool
  | repeat0 | repeat1 | option | sep => true
  | _ => false

/-- Whether the children of a node may be of the given kinds. -/
def fits : Construct → List Construct → Bool
  | rule .., [k] => k == alts || k == alt
  | alts, ks => !ks.isEmpty && ks.all (· == alt)
  | alt, ks => ks.all isFactor
  | option, [k] => k.isFactor
  | sep, [k] => k.isFactor
  | repeat0, [k] => k.isFactor
  | repeat0, [k, s] => k.isFactor && s == sep
  | repeat1, [k] => k.isFactor
  | repeat1, [k, s] => k.isFactor && s == sep
  | inclusion _, ks => ks.all isMember
  | exclusion _, ks => ks.all isMember
  | prolog, ks => ks.all isVersion
  | ixml, ks => ks.all isTop
  | nonterminal .., [] | literal .., [] | insertion _, [] | charClass _, [] | range .., [] => true
  | version _, [] | pragma .., [] => true
  | _, _ => false

variable {k t u : Construct} {ks as bs : List Construct}

theorem fits_rule {m : Mark} {r : Option String} (h : (rule m r).fits ks = true) : ks = [alts] ∨ ks = [alt] := by
  match ks, h with
  | [k], h => simpa [fits] using h

theorem fits_alts (h : alts.fits ks = true) : ks ≠ [] ∧ ∀ k ∈ ks, k = alt := by
  simpa [fits] using h

theorem fits_alt (h : alt.fits ks = true) : ∀ k ∈ ks, k.isFactor = true := by
  simpa [fits] using h

theorem fits_sep (h : sep.fits ks = true) : ∃ k, ks = [k] ∧ k.isFactor = true := by
  match ks, h with
  | [k], h => exact ⟨k, rfl, h⟩

theorem fits_repeat (hk : k = repeat0 ∨ k = repeat1) (h : k.fits ks = true) :
    ∃ f, f.isFactor = true ∧ (ks = [f] ∨ ks = [f, sep]) := by
  rcases hk with rfl | rfl
  all_goals
    match ks, h with
    | [f], h => exact ⟨f, h, Or.inl rfl⟩
    | [f, s], h =>
      have h : f.isFactor = true ∧ s = sep := by simpa [fits] using h
      exact ⟨f, h.1, Or.inr (by rw [h.2])⟩

theorem fits_hasFactor (hk : k.hasFactor = true) (h : k.fits ks = true) : ∃ f, f.isFactor = true ∧
    (ks = [f] ∨ (k = repeat0 ∨ k = repeat1) ∧ ks = [f, sep]) := by
  cases k with
  | repeat0 =>
    obtain ⟨f, hf, h⟩ := fits_repeat (.inl rfl) h
    exact ⟨f, hf, h.imp_right fun h => ⟨.inl rfl, h⟩⟩
  | repeat1 =>
    obtain ⟨f, hf, h⟩ := fits_repeat (.inr rfl) h
    exact ⟨f, hf, h.imp_right fun h => ⟨.inr rfl, h⟩⟩
  | sep =>
    obtain ⟨f, hks, hf⟩ := fits_sep h
    exact ⟨f, hf, .inl hks⟩
  | option =>
    match ks, h with
    | [f], h => exact ⟨f, h, .inl rfl⟩
  | _ => cases hk

theorem fits_flat (hk : k.isFlat = true) (h : k.fits ks = true) : ∀ m ∈ ks, m.isMember = true := by
  cases k <;> simp [isFlat] at hk <;> cases ks <;> simp_all [fits]

theorem fits_member (hk : k.isMember = true) (h : k.fits ks = true) : ks = [] := by
  cases k <;> simp [isMember] at hk <;> cases ks <;> simp_all [fits]

/-- A compound below anything but a rule may give way to any factor. -/
theorem fits_congr (hk : k.isRule = false) (ht : t.isCompound = true) (hu : u.isFactor = true)
    (h : k.fits (bs ++ t :: as) = true) : k.fits (bs ++ u :: as) = true := by
  have hm : t.isMember = false := by cases t <;> simp_all [isCompound, isMember]
  have hv : t.isVersion = false := by cases t <;> simp_all [isCompound, isVersion]
  have htop : t.isTop = false := by cases t <;> simp_all [isCompound, isTop, isRule]
  have hs : t ≠ sep := by rintro rfl; simp [isCompound] at ht
  have ha : t ≠ alt := by rintro rfl; simp [isCompound] at ht
  match bs, as with
  | [], [] => cases k <;> simp_all [fits, isRule]
  | [], [a] => cases k <;> simp_all [fits, isRule]
  | [], a :: b :: as => cases k <;> simp_all [fits, isRule]
  | [b], [] => cases k <;> simp_all [fits, isRule]
  | [b], a :: as => cases k <;> simp_all [fits, isRule]
  | b :: c :: bs, as => cases k <;> simp_all [fits, isRule]

end Construct

namespace Tree

def kind (t : Tree) : Construct :=
  t.label.kind

@[simp] theorem kind_node (l : Label) (ts : List Tree) : (node l ts).kind = l.kind := rfl

mutual

/-- Every node satisfies `P` together with the kinds of its children. -/
def Every (P : Label → List Construct → Prop) : Tree → Prop
  | node l ts => P l (ts.map kind) ∧ EveryAll P ts

def EveryAll (P : Label → List Construct → Prop) : List Tree → Prop
  | [] => True
  | t :: ts => Every P t ∧ EveryAll P ts

end

theorem everyAll_iff {P : Label → List Construct → Prop} {ts : List Tree} :
    EveryAll P ts ↔ ∀ t ∈ ts, t.Every P := by
  induction ts with
  | nil => simp [EveryAll]
  | cons t ts ih => simp [EveryAll, ih]

@[simp] theorem every_node {P : Label → List Construct → Prop} {l : Label} {ts : List Tree} :
    (node l ts).Every P ↔ P l (ts.map kind) ∧ ∀ t ∈ ts, t.Every P := by
  rw [Every, everyAll_iff]

theorem Every.mono {P Q : Label → List Construct → Prop} {t : Tree} (h : t.Every P) (hPQ : ∀ l ks, P l ks → Q l ks) :
    t.Every Q := by
  match t with
  | node l ts =>
    obtain ⟨hl, hts⟩ := every_node.mp h
    refine every_node.mpr ⟨hPQ _ _ hl, fun u hu => ?_⟩
    have : sizeOf u < sizeOf ts := List.sizeOf_lt_of_mem hu
    exact Every.mono (hts u hu) hPQ
termination_by sizeOf t
decreasing_by
  simp only [node.sizeOf_spec]
  omega

end Tree

namespace Layout

variable {P Q : Label → List Construct → Prop} {q : Option NodeId} {i : NodeId} {l : Label} {s : Spot}
  {t u : Layout} {ts : List Layout} {z : List Frame} {f : Frame}

/-- Every node satisfies `P` together with the kinds of its children. -/
def Every (P : Label → List Construct → Prop) (t : Layout) : Prop :=
  t.erase.Every P

@[simp] theorem kind_erase (t : Layout) : t.erase.kind = t.kind := by
  simp [Tree.kind, kind]

@[simp] theorem every_node :
    (node i l ts).Every P ↔ P l (ts.map kind) ∧ ∀ t ∈ ts, t.Every P := by
  simp [Every, Function.comp_def]

theorem Every.label {t : Layout} (h : t.Every P) : P t.label (t.children.map kind) := by
  obtain ⟨i, l, ts⟩ := t
  exact (every_node.mp h).1

theorem Every.of_erase_eq (h : t.Every P) (he : u.erase = t.erase) : u.Every P := by
  rwa [Every, he]

theorem kidKinds_top (q : Option NodeId) (t : Layout) : (top q t).kidKinds = t.children.map kind := by
  simp [Spot.kidKinds, top, head, Function.comp_def, kind]

theorem Every.of_mem_spots {q : Option NodeId} {t : Layout} (h : t.Every P) (hs : s ∈ spots q t) :
    P s.label s.kidKinds := by
  induction t generalizing q with
  | node i l ts ih =>
    rcases mem_spots.mp hs with rfl | ⟨u, hu, hs⟩
    · rw [kidKinds_top]
      exact (every_node.mp h).1
    · exact ih u hu ((every_node.mp h).2 u hu) hs

theorem every_of_spots {q : Option NodeId} {t : Layout} (h : ∀ s ∈ spots q t, P s.label s.kidKinds) :
    t.Every P := by
  induction t generalizing q with
  | node i l ts ih =>
    refine every_node.mpr ⟨?_, fun u hu => ih u hu fun s hs => h s (mem_spots.mpr (Or.inr ⟨u, hu, hs⟩))⟩
    have := h _ (top_mem_spots q _)
    rwa [kidKinds_top] at this

theorem Every.mono {t : Layout} (h : t.Every P) (hPQ : ∀ l ks, P l ks → Q l ks) : t.Every Q :=
  Tree.Every.mono h hPQ

theorem Every.of_fill (h : (fill z t).Every P) : t.Every P := by
  induction z generalizing t with
  | nil => exact h
  | cons f z ih => exact (every_node.mp (ih h)).2 t (by simp)

theorem Every.frame (h : (fill (f :: z) t).Every P) : P f.label ((f.before ++ t :: f.after).map kind) :=
  (every_node.mp (Every.of_fill (z := z) h)).1

theorem Every.factor (ht : t.Every P) {a : Layout} (ha : a ∈ t.children) (hu : u ∈ a.children) : u.Every P := by
  obtain ⟨i, l, ts⟩ := t
  have hpa := (every_node.mp ht).2 a ha
  obtain ⟨j, k, us⟩ := a
  exact (every_node.mp hpa).2 u hu

/-- A layout may give way to another if the nearest frame allows it. -/
theorem Every.fill_congr (h : (fill (f :: z) t).Every P) (hu : u.Every P)
    (hf : P f.label ((f.before ++ u :: f.after).map kind)) : (fill (f :: z) u).Every P := by
  induction z generalizing t u f with
  | nil =>
    obtain ⟨-, hts⟩ := every_node.mp h
    refine every_node.mpr ⟨hf, fun v hv => ?_⟩
    rw [List.mem_append, List.mem_cons] at hv
    rcases hv with hv | rfl | hv
    · exact hts v (by simp [hv])
    · exact hu
    · exact hts v (by simp [hv])
  | cons f' z ih =>
    have hframe := h.of_fill (z := f' :: z) (t := node f.id f.label (f.before ++ t :: f.after))
    obtain ⟨-, hts⟩ := every_node.mp hframe
    have hf' : P f'.label ((f'.before ++ node f.id f.label (f.before ++ u :: f.after) :: f'.after).map kind) := by
      simpa using Every.frame (f := f') (t := node f.id f.label (f.before ++ t :: f.after)) h
    refine ih (f := f') h (every_node.mpr ⟨hf, fun v hv => ?_⟩) hf'
    rw [List.mem_append, List.mem_cons] at hv
    rcases hv with hv | rfl | hv
    · exact hts v (by simp [hv])
    · exact hu
    · exact hts v (by simp [hv])

end Layout

end Ixml
