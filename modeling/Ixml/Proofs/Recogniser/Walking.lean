import Ixml.Proofs.Work
import Ixml.Recogniser

/-!
# What a walk keeps

A walk goes into symbols of the grammar only. So a property of the state that a visitor keeps, whatever it chooses
among, at each event of such a symbol is one that the walk keeps (`ensures_walk`).
-/

namespace Ixml

def DerivationEvent.attributes : DerivationEvent → Attributes
  | opens a => a
  | closes a => a
  | matched _ a => a

namespace Recognition

variable {σ : Type} {r : Recognition} {v : Visitor σ} {A : Attributes → Prop} {P : σ → Prop} {s : σ}

/-- Whatever is chosen among, and at each event of a symbol with attributes that satisfy `A`, a visitor keeps `P`. -/
structure Visitor.Keeps (v : Visitor σ) (A : Attributes → Prop) (P : σ → Prop) : Prop where
  choose : ∀ rules s, P s → (v.choose rules).Ensures s fun _ t => P t
  visit : ∀ e s, A e.attributes → P s → (v.visit e).Ensures s fun _ t => P t

theorem grammar_rounds (fuel round : Nat) (r : Recognition) : (rounds fuel round r).grammar = r.grammar := by
  induction fuel generalizing round r with
  | zero => rfl
  | succ fuel ih =>
    rw [rounds]
    split
    · rfl
    · exact ih _ _

theorem grammar_of_parse? {B : Bnf} {input : String} (h : parse? B input = some r) : r.grammar = B := by
  simp only [parse?] at h
  split at h
  · rw [← Option.some.inj h]
    exact grammar_rounds _ _ _
  · cases h

theorem rule_mem_of_mem_ways {bound : Nat} {span : Span} {way : Rule × List Part} (h : way ∈ r.ways bound span) :
    way.1 ∈ r.grammar.rules := by
  obtain ⟨rule, hrule, hway⟩ := List.mem_flatMap.mp h
  obtain ⟨parts, -, rfl⟩ := List.mem_map.mp hway
  exact (List.mem_filter.mp hrule).1

theorem ensures_walkSymbol (hv : v.Keeps A P) (hA : ∀ rule ∈ r.grammar.rules, ∀ x ∈ rule.rhs, A x.attributes)
    (fuel : Nat) {symbol : Symbol} (hx : A symbol.attributes) (first last : Nat) (hs : P s) :
    (walkSymbol r v fuel symbol first last).Ensures s fun _ t => P t := by
  induction fuel generalizing symbol first last s with
  | zero => exact .throw _ _
  | succ fuel ih =>
    rw [walkSymbol]
    split
    · exact .throw _ _
    dsimp only
    split
    · exact .throw _ _
    refine (hv.choose _ s hs).bind fun choice s₁ h₁ => ?_
    split
    · exact .throw _ _
    rename_i rule parts hway
    have hrule := rule_mem_of_mem_ways (List.mem_of_getElem? hway)
    refine (hv.visit (.opens symbol.attributes) s₁ hx h₁).bind fun _ s₂ h₂ => ?_
    refine (Work.Ensures.forM (P := P) (fun p hp s hs => ?_) h₂).bind fun _ s₃ h₃ => hv.visit (.closes _) s₃ hx h₃
    obtain ⟨child, part⟩ := p
    have hchild := hA rule hrule child (List.of_mem_zip hp).1
    cases part with
    | derived p q => exact ih hchild p q hs
    | matched p =>
      dsimp only
      split
      · exact hv.visit (.matched _ _) s hchild hs
      · exact .throw _ _

theorem ensures_walk (hv : v.Keeps A P) (hA : ∀ rule ∈ r.grammar.rules, ∀ x ∈ rule.rhs, A x.attributes)
    (hstart : A r.grammar.start.attributes) (hs : P s) : (r.walk v).Ensures s fun _ t => P t :=
  ensures_walkSymbol hv hA _ hstart _ _ hs

end Recognition

end Ixml
