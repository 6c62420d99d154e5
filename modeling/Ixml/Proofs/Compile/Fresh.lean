import Ixml.Proofs.Compile.Checking
import Ixml.Proofs.Simplify.Births

/-!
# Made-up names are fresh

The names that a compile makes up collide with nothing (`isNamed_of_ofSource`): each number is in the name of the
rules of one origin only, no name of the text begins like a made-up one, and two rules of one name have been split off
the same rule.
-/

namespace Ixml

open Layout Simplify

/-- The names of the rules of a grammar and those that its references use. -/
def Grammar.spoken (g : Grammar) : List String :=
  ((g.nodesFrom Grammar.root).filter fun i => (g.kind i).isRule || (g.kind i).isNonterminal).map g.nameText

namespace Simplify

/-- How the names of a grammar `g` come about, which is simplified from `g₀` with the births `bs`. -/
structure IsNamed (g₀ g : Grammar) (bs : List (Move × NodeId)) : Prop where
  /-- What was there is there still, and all else is born. -/
  members : members g = members g₀ ++ bs.map Prod.snd
  /-- The numbers in the names that are made up for constructs and groups are counted up. -/
  numbers : (bs.filter (·.1.rewrites)).map (fun x => number? (g.nameText x.2)) = (List.range' 1 g.madeUp).map some
  /-- Different constructs and groups get different names. -/
  distinct : ((bs.filter (·.1.rewrites)).map fun x => g.nameText x.2).Nodup
  /-- Each of the numbers is in one name only. -/
  counted : ∀ n, 1 ≤ n → n ≤ g.madeUp → ∃! name, name ∈ g.rules.map g.nameText ∧ number? name = some n
  /-- A rule has a name of the text, that of the shared rule, or one with a number. -/
  named : ∀ r ∈ g.rules, g.nameText r ∈ g₀.rules.map g₀.nameText ∨ g.nameText r = emptyRule ∨
    ∃ n, 1 ≤ n ∧ n ≤ g.madeUp ∧ number? (g.nameText r) = some n
  /-- A name with a number occurs nowhere in the text, and is not one of the two shared rules. -/
  fresh : ∀ r ∈ g.rules, (number? (g.nameText r)).isSome = true →
    g.nameText r ∉ g₀.spoken ∧ g.nameText r ≠ emptyRule ∧ g.nameText r ≠ Bnf.OfGrammar.insertionRule
  shared : emptyRule ∉ g₀.spoken
  /-- Rules of one name are split off one rule, or are that rule; it is one of the text, or made up. -/
  origin : ∀ r ∈ g.rules, ∀ s ∈ g.rules, g.nameText r = g.nameText s → ∃ o, SplitFrom bs o r ∧ SplitFrom bs o s ∧
    (o ∈ g₀.rules ∨ ∃ mv, (mv, o) ∈ bs ∧ mv.isSplit = false)

variable {rootLabel : Label} {b g g₀ : Grammar} {J J' : List Layout} {m m' : Nat} {strategy : Strategy}
  {B : List (Move × NodeId × Label)}

theorem Holds.nameText_of_mem (h : Holds rootLabel b J [] g) : ∀ x ∈ J.map head, g.nameText x.1 = x.2.nameText := by
  intro x hx
  obtain ⟨t, ht, rfl⟩ := List.mem_map.mp hx
  exact (h.keeps ht).nameText_eq

theorem Holds.mem_rules_iff (h : Holds rootLabel b J [] g) {r : NodeId} :
    r ∈ g.rules ↔ ∃ x ∈ J.map head, x.2.kind.isRule = true ∧ x.1 = r := by
  rw [h.rules_eq]
  simp only [List.mem_map, List.mem_filter, exists_exists_and_eq_and, and_assoc]
  rfl

theorem Holds.madeUp_eq (h : Holds rootLabel b J [] g) : g.madeUp = b.madeUp := by
  obtain ⟨junk, h⟩ := h
  rw [show g.madeUp = g.bare.madeUp from rfl, h.bare]

end Simplify

namespace IsUnderstood

variable {rootLabel : Label} {b g : Grammar} {J : List Layout}

theorem not_isMade_of_mem (h : IsUnderstood rootLabel b J g) : ∀ x ∈ J.map head, ¬IsMade x.2.nameText := by
  intro x hx
  obtain ⟨t, ht, rfl⟩ := List.mem_map.mp hx
  exact (h.shape t ht).label.2

/-- No rule of a text and no reference in it has a name that begins like a made-up one. -/
theorem not_isMade_of_spoken (h : IsUnderstood rootLabel b J g) : ∀ name ∈ g.spoken, ¬IsMade name := by
  intro name hname
  obtain ⟨i, hi, rfl⟩ := List.mem_map.mp hname
  obtain ⟨hi, hk⟩ := List.mem_filter.mp hi
  have hids : g.nodesFrom Grammar.root = Grammar.root :: idsAll J := by
    obtain ⟨junk, hl⟩ := h.holds
    exact (hl.lays.nodesFrom_eq (z := []) (List.mem_cons_self ..)).trans (ids_node ..)
  rw [hids] at hi
  rcases List.mem_cons.mp hi with rfl | hi
  · rw [h.holds.kind_root, h.root] at hk
    cases hk
  · obtain ⟨t, ht, hi⟩ := mem_idsAll.mp hi
    obtain ⟨s, hs, rfl⟩ := mem_spots_of_mem_ids (some Grammar.root) hi
    have hnode := h.holds.spot_eq (mem_spotsAll.mpr ⟨t, ht, hs⟩)
    rw [show g.nameText s.id = s.label.nameText by rw [Grammar.nameText, hnode]; rfl]
    exact ((h.shape t ht).of_mem_spots hs).2

theorem old (h : IsUnderstood rootLabel b J g) : Old 0 (J.map head) :=
  fun x hx _ _ hn => absurd hn.isMade (h.not_isMade_of_mem x hx)

end IsUnderstood

/-- A grammar `g₀` that is understood, with the layouts `J`, and what is left of it when the moves of a simplification
have added the tops `B`. -/
structure Simplified (rootLabel : Label) (b : Grammar) (J J' : List Layout) (B : List (Move × NodeId × Label)) (m : Nat)
    (g₀ g : Grammar) : Prop where
  understood : IsUnderstood rootLabel b J g₀
  holds : Holds rootLabel { b with madeUp := m } J' [] g
  heads : J'.map head = J.map head ++ B.map Prod.snd
  born : Born (J.map head) 0 B m

namespace Simplified

variable {rootLabel : Label} {b g g₀ : Grammar} {J J' : List Layout} {m n : Nat} {B : List (Move × NodeId × Label)}
  {r : NodeId} {x y : Move × NodeId × Label}

theorem nameText_eq (h : Simplified rootLabel b J J' B m g₀ g) (hx : x ∈ B) : g.nameText x.2.1 = x.2.2.nameText := by
  refine h.holds.nameText_of_mem x.2 ?_
  rw [h.heads]
  exact List.mem_append_right _ (List.mem_map_of_mem hx)

theorem mem_rules (h : Simplified rootLabel b J J' B m g₀ g) (hx : x ∈ B) : x.2.1 ∈ g.rules := by
  refine h.holds.mem_rules_iff.mpr ⟨x.2, ?_, h.born.isRule x hx, rfl⟩
  rw [h.heads]
  exact List.mem_append_right _ (List.mem_map_of_mem hx)

/-- Each rule has an origin of the same name. -/
theorem exists_origin (h : Simplified rootLabel b J J' B m g₀ g) (hr : r ∈ g.rules) :
    ∃ o, IsOrigin (J.map head) B o ∧ o.2.kind.isRule = true ∧ o.2.nameText = g.nameText r ∧
      SplitFrom (B.map fun x => (x.1, x.2.1)) o.1 r := by
  obtain ⟨x, hx, hrule, rfl⟩ := h.holds.mem_rules_iff.mp hr
  obtain ⟨o, ho, hor, hname, hsplit⟩ := h.born.exists_origin x (h.heads ▸ hx) hrule
  exact ⟨o, ho, hor, hname.trans (h.holds.nameText_of_mem x hx).symm, hsplit⟩

/-- Where the name of a rule comes from. -/
theorem name_cases (h : Simplified rootLabel b J J' B m g₀ g) (hr : r ∈ g.rules) :
    (g.nameText r ∈ g₀.rules.map g₀.nameText ∧ ¬IsMade (g.nameText r)) ∨ g.nameText r = emptyRule ∨
      ∃ x ∈ B.filter (·.1.rewrites),
        x.2.2.nameText = g.nameText r ∧ ∃ n, 0 < n ∧ n ≤ m ∧ Numbered (g.nameText r) n := by
  obtain ⟨o, ho, hor, hname, -⟩ := h.exists_origin hr
  rw [← hname]
  rcases ho with ho | ⟨mv, ho, hmv⟩
  · have hmem : o.1 ∈ g₀.rules := h.understood.holds.mem_rules_iff.mpr ⟨o, ho, hor, rfl⟩
    refine .inl ⟨?_, h.understood.not_isMade_of_mem o ho⟩
    rw [← h.understood.holds.nameText_of_mem o ho]
    exact List.mem_map_of_mem hmem
  · refine .inr ((h.born.made _ ho hmv).imp_right fun ⟨hrewrites, hn⟩ => ?_)
    exact ⟨(mv, o), List.mem_filter.mpr ⟨ho, hrewrites⟩, rfl, hn⟩

theorem numbers (h : Simplified rootLabel b J J' B m g₀ g) :
    (B.filter (·.1.rewrites)).map (fun x => number? x.2.2.nameText) = (List.range' 1 m).map some := by
  obtain ⟨k, rfl, hk⟩ := h.born.numbers
  rw [hk, Nat.zero_add, Nat.zero_add]

theorem nodup_numbers (h : Simplified rootLabel b J J' B m g₀ g) :
    ((B.filter (·.1.rewrites)).map fun x => number? x.2.2.nameText).Nodup := by
  rw [h.numbers]
  exact (List.nodup_range' 1).map fun _ _ => Option.some.inj

/-- A number is in one name only. -/
theorem counted (h : Simplified rootLabel b J J' B m g₀ g) (hn : 1 ≤ n) (hm : n ≤ m) :
    ∃! name, name ∈ g.rules.map g.nameText ∧ number? name = some n := by
  have hmem : some n ∈ (B.filter (·.1.rewrites)).map fun x => number? x.2.2.nameText := by
    rw [h.numbers]
    exact List.mem_map_of_mem (List.mem_range'_1.mpr ⟨hn, by omega⟩)
  obtain ⟨x, hx, hnumber⟩ := List.mem_map.mp hmem
  have hxB := List.mem_of_mem_filter hx
  refine ⟨x.2.2.nameText, ⟨?_, hnumber⟩, ?_⟩
  · rw [← h.nameText_eq hxB]
    exact List.mem_map_of_mem (h.mem_rules hxB)
  · rintro name ⟨hname, hnumber'⟩
    obtain ⟨r, hr, rfl⟩ := List.mem_map.mp hname
    rcases h.name_cases hr with ⟨-, hmade⟩ | he | ⟨y, hy, hyname, -⟩
    · rw [number?_of_not_isMade hmade] at hnumber'
      cases hnumber'
    · rw [he, number?_emptyRule] at hnumber'
      cases hnumber'
    · rw [← hyname] at hnumber' ⊢
      rw [List.inj_on_of_nodup_map h.nodup_numbers hy hx (hnumber'.trans hnumber.symm)]

/-- If the rules of a text have different names, nothing that is made up collides. -/
theorem isNamed (h : Simplified rootLabel b J J' B m g₀ g) (hn : (g₀.rules.map g₀.nameText).Nodup) :
    IsNamed g₀ g (B.map fun x => (x.1, x.2.1)) := by
  have hm : g.madeUp = m := h.holds.madeUp_eq
  have hspoken := h.understood.not_isMade_of_spoken
  have hmap : ((B.map fun x => (x.1, x.2.1)).filter (·.1.rewrites)).map (fun x => number? (g.nameText x.2)) =
      (B.filter (·.1.rewrites)).map fun x => number? x.2.2.nameText := by
    rw [List.filter_map, List.map_map]
    exact List.map_congr_left fun x hx => congrArg number? (h.nameText_eq (List.mem_of_mem_filter hx))
  constructor
  case members =>
    have hheads := congrArg (List.map Prod.fst) h.heads
    rw [members, members, h.holds.children_root, h.holds.waiting_eq, h.understood.holds.children_root,
      h.understood.holds.waiting_eq]
    simpa [Function.comp_def, head] using hheads
  case numbers => rw [hmap, hm, h.numbers]
  case distinct =>
    -- the numbers in the names differ
    refine List.Nodup.of_map number? ?_
    rw [List.map_map]
    exact (congrArg List.Nodup hmap).mpr h.nodup_numbers
  case counted => exact fun n hn hle => h.counted hn (hm ▸ hle)
  case named =>
    intro r hr
    rcases h.name_cases hr with ⟨hname, -⟩ | he | ⟨-, -, -, n, hn, hle, hnum⟩
    · exact .inl hname
    · exact .inr (.inl he)
    · exact .inr (.inr ⟨n, hn, hm ▸ hle, hnum.number?_eq⟩)
  case fresh =>
    intro r hr hsome
    rcases h.name_cases hr with ⟨-, hmade⟩ | he | ⟨-, -, -, n, -, -, hnum⟩
    · rw [number?_of_not_isMade hmade] at hsome
      cases hsome
    · rw [he, number?_emptyRule] at hsome
      cases hsome
    · refine ⟨fun hmem => hspoken _ hmem hnum.isMade, hnum.ne_emptyRule, fun he => ?_⟩
      rw [he] at hsome
      exact absurd hsome (by decide +kernel)
  case shared => exact fun hmem => hspoken _ hmem isMade_emptyRule
  case origin =>
    intro r hr s hs hrs
    obtain ⟨o, ho, hor, hname, hsplit⟩ := h.exists_origin hr
    obtain ⟨o', ho', hor', hname', hsplit'⟩ := h.exists_origin hs
    have hH : (((J.map head).filter (·.2.kind.isRule)).map (·.2.nameText)).Nodup := by
      rw [names_eq h.understood.holds] at hn
      rw [List.filter_map, List.map_map]
      exact hn
    obtain rfl := h.born.origin_unique h.understood.old hH ho ho' hor hor' ((hname.trans hrs).trans hname'.symm)
    refine ⟨o.1, hsplit, hsplit', ?_⟩
    rcases ho with ho | ⟨mv, ho, hmv⟩
    · exact .inl (h.understood.holds.mem_rules_iff.mpr ⟨o, ho, hor, rfl⟩)
    · exact .inr ⟨mv, List.mem_map.mpr ⟨_, ho, rfl⟩, hmv⟩

end Simplified

variable {rootLabel : Label} {b g₀ : Grammar} {J : List Layout} {source : String} {options : Options}

theorem IsUnderstood.exists_simplified (h : IsUnderstood rootLabel b J g₀) (strategy : Strategy) :
    ∃ J' m B, Simplified rootLabel b J J' B m g₀ (simplify strategy g₀).grammar ∧
      births strategy (moves strategy g₀) g₀ = B.map fun x => (x.1, x.2.1) := by
  obtain ⟨J', m, hcourse⟩ := exists_course h.holds (by rw [h.root]; exact nofun) h.sound h.isSome_start strategy
  have hstands : (⟨g₀, J, [], b.madeUp⟩ : Standing).Stands rootLabel b := ⟨h.holds, by simpa using h.sound⟩
  obtain ⟨B, hheads, hbirths, hborn⟩ := hcourse.exists_births hstands
  simp only [Standing.heads, List.append_nil] at hheads hborn
  exact ⟨J', m, B, ⟨h, (hcourse.stands hstands).holds, hheads, h.madeUp ▸ hborn⟩, hbirths⟩

/-- On a text that compiles, in either way, nothing that is made up collides. -/
theorem isNamed_of_ofSource (source : String) (options : Options) (g : Grammar)
    (h : Grammar.ofSource source options = .ok g) : ∃ g₀, Grammar.understood source = .ok g₀ ∧
      run options.strategy (moves options.strategy g₀) g₀ = g ∧
      IsNamed g₀ g (births options.strategy (moves options.strategy g₀) g₀) := by
  obtain ⟨g₀, hu, hcheck, rfl⟩ := ofSource_eq_ok_iff.mp h
  obtain ⟨rootLabel, b, J, hJ⟩ := exists_isUnderstood hu
  obtain ⟨J', m, B, hsimplified, hbirths⟩ := hJ.exists_simplified options.strategy
  refine ⟨g₀, hu, run_moves _ _, ?_⟩
  rw [hbirths]
  exact hsimplified.isNamed (Grammar.check_eq_ok_iff.mp hcheck).1

theorem isNamed_of_ofSource_underscores : ∃ g g₀,
    Grammar.ofSource "s: a_1*, ('_'; a_1), (). a_1: 'a'; 'b'." { strategy := .alternate } = .ok g ∧
    g.rules.map g.nameText = ["s", "a_1", "a_1", "$empty", "$a%5F1_1_star", "$%5F_2_alts", "$a%5F1_1_star",
      "$%5F_2_alts"] ∧
    IsNamed g₀ g (births .alternate (moves .alternate g₀) g₀) := by
  obtain ⟨g, hg, hnames⟩ := exists_eq_ok_and
    (x := Grammar.ofSource "s: a_1*, ('_'; a_1), (). a_1: 'a'; 'b'." { strategy := .alternate })
    (p := fun g => g.rules.map g.nameText == ["s", "a_1", "a_1", "$empty", "$a%5F1_1_star", "$%5F_2_alts",
      "$a%5F1_1_star", "$%5F_2_alts"]) (by decide +kernel)
  obtain ⟨g₀, -, -, hnamed⟩ := isNamed_of_ofSource _ _ g hg
  exact ⟨g, g₀, hg, by simpa using hnames, hnamed⟩

end Ixml
