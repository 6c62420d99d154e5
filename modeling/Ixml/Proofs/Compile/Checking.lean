import Ixml.Grammar.Check
import Ixml.Proofs.Compile.Stages
import Ixml.Proofs.Simplify.Leaves

/-!
# What the check says

A grammar that passes the check has one rule for each name, so that its stock is uniform (`isUniform_of_check`), and a
rule for each of its references (`exists_rule_of_check`).
-/

namespace Ixml

open Layout Simplify

namespace Grammar

variable {g : Grammar} {seen names : List String} {c : Bool}

theorem firstRepeated_eq_none_iff : firstRepeated seen names = none ↔ names.Nodup ∧ ∀ n ∈ names, n ∉ seen := by
  induction names generalizing seen with
  | nil => simp [firstRepeated]
  | cons n ns ih =>
    rw [firstRepeated, List.nodup_cons]
    by_cases hn : n ∈ seen
    · simp [hn]
    · rw [if_neg (by simpa using hn), ih]
      constructor
      · rintro ⟨hnodup, hnot⟩
        refine ⟨⟨fun hm => hnot n hm (by simp), hnodup⟩, fun x hx => ?_⟩
        rcases List.mem_cons.mp hx with rfl | hx
        · exact hn
        · exact fun hm => hnot x hx (by simp [hm])
      · rintro ⟨⟨hnew, hnodup⟩, hnot⟩
        refine ⟨hnodup, fun x hx hm => ?_⟩
        rcases List.mem_cons.mp hm with rfl | hm
        · exact hnew hx
        · exact hnot x (by simp [hx]) hm

theorem firstUndefined_eq_none_iff : g.firstUndefined = none ↔
    ∀ rule ∈ g.rules, ∀ id ∈ g.references rule, g.nameText id ∈ g.rules.map g.nameText := by
  rw [firstUndefined, List.findSome?_eq_none_iff]
  refine forall₂_congr fun rule _ => ?_
  rw [Option.map_eq_none_iff, List.find?_eq_none]
  simp

/-- No rule is defined twice, and, if asked, every reference names a rule. -/
theorem check_eq_ok_iff : g.check c = .ok () ↔ (g.rules.map g.nameText).Nodup ∧
    (c = true → ∀ rule ∈ g.rules, ∀ id ∈ g.references rule, g.nameText id ∈ g.rules.map g.nameText) := by
  have hnames : firstRepeated [] (g.rules.map g.nameText) = none ↔ (g.rules.map g.nameText).Nodup := by
    simp [firstRepeated_eq_none_iff]
  rw [← hnames, ← firstUndefined_eq_none_iff, check]
  cases firstRepeated [] (g.rules.map g.nameText) with
  | some n => simp
  | none =>
    cases c with
    | false => simp
    | true => cases g.firstUndefined <;> simp

end Grammar

variable {rootLabel : Label} {b g : Grammar} {J W : List Layout} {m : Nat} {t : Layout} {v : Tree} {c : Bool}

theorem names_eq (h : Holds rootLabel b J W g) :
    g.rules.map g.nameText = (J.filter (·.kind.isRule)).map (·.label.nameText) := by
  rw [h.rules_eq, List.map_map]
  refine List.map_congr_left fun t ht => ?_
  exact (h.keeps (List.mem_of_mem_filter ht)).nameText_eq

theorem isUniform_of_check (h : Holds rootLabel b J W g) (hc : g.check c = .ok ()) : Stock.IsUniform ⟨J, m⟩ := by
  intro t ht u hu htr hur hn
  have hnodup := (Grammar.check_eq_ok_iff.mp hc).1
  rw [names_eq h] at hnodup
  obtain rfl := List.inj_on_of_nodup_map hnodup (List.mem_filter.mpr ⟨ht, htr⟩) (List.mem_filter.mpr ⟨hu, hur⟩) hn
  rfl

/-- The references below a rule have names of some kind if and only if all references of its layout have. -/
theorem forall_references_iff (h : Holds rootLabel b J W g) (ht : t ∈ J) {P : String → Prop} :
    (∀ id ∈ g.references t.id, P (g.nameText id)) ↔
      t.Every fun l _ => l.kind.isNonterminal = true → P l.nameText := by
  have hids : g.nodesFrom t.id = (spots (some Grammar.root) t).map (·.id) := by
    rw [h.nodesFrom_eq ht, map_id_spots_eq_ids]
  have hlabel : ∀ s ∈ spots (some Grammar.root) t, (g.node s.id).toLabel = s.label := by
    intro s hs
    rw [h.spot_eq (mem_spotsAll.mpr ⟨t, ht, hs⟩)]
    rfl
  constructor
  · intro hall
    refine every_of_spots (q := some Grammar.root) fun s hs hk => ?_
    rw [← hlabel s hs]
    refine hall s.id (List.mem_filter.mpr ⟨hids ▸ List.mem_map_of_mem hs, ?_⟩)
    rw [Grammar.kind, hlabel s hs]
    exact hk
  · intro hall id hid
    obtain ⟨hid, hk⟩ := List.mem_filter.mp hid
    rw [hids] at hid
    obtain ⟨s, hs, rfl⟩ := List.mem_map.mp hid
    rw [Grammar.kind, hlabel s hs] at hk
    rw [Grammar.nameText, hlabel s hs]
    exact hall.of_mem_spots hs hk

/-- Every leaf that is a reference names a rule. -/
theorem exists_rule_of_check (h : Holds rootLabel b J W g) (hc : g.check true = .ok ()) (ht : t ∈ J)
    (hr : t.kind.isRule = true) (hv : v ∈ t.leaves) (hk : v.kind.isNonterminal = true) :
    ∃ r ∈ J, IsRuleNamed v.label.nameText r := by
  have hrule : t.id ∈ g.rules := by
    rw [h.rules_eq]
    exact List.mem_map_of_mem (List.mem_filter.mpr ⟨ht, hr⟩)
  have hall := (forall_references_iff h ht).mp ((Grammar.check_eq_ok_iff.mp hc).2 rfl t.id hrule)
  have hname := hall.label_of_mem_leaves hv hk
  rw [names_eq h] at hname
  obtain ⟨r, hr, hn⟩ := List.mem_map.mp hname
  obtain ⟨hr, hrule⟩ := List.mem_filter.mp hr
  exact ⟨r, hr, hrule, hn⟩

end Ixml
