import Ixml.Proofs.Compile.Stages

/-!
# Simplification ends

No bound is needed for the passes: on every grammar that is understood they come to one that changes nothing,
and then no step of a pass has anything left to do (`exists_runs_of_understood`). What ends them is the weight of
the rules that are not canonical, which every pass lowers (`does_pass`). They end before the bound that the
program gives itself is reached, so that it never cuts them off.
-/

namespace Ixml.Simplify

open Layout Edit

variable {strategy : Strategy} {rootLabel : Label} {b g h : Grammar} {J : List Layout} {counts : List Nat}
  {n fuel : Nat} {source : String}

/-- `Runs strategy g counts h` says that passes over `g`, without a bound, end with `h` when one of them reports
no change; `counts` are the numbers of rules after each. -/
inductive Runs (strategy : Strategy) : Grammar → List Nat → Grammar → Prop
  | last {g h : Grammar} (hp : (pass strategy).run g = (false, h)) : Runs strategy g [h.rules.length] h
  | next {g h k : Grammar} {counts : List Nat} (hp : (pass strategy).run g = (true, h))
    (hr : Runs strategy h counts k) : Runs strategy g (h.rules.length :: counts) k

/-- Every step of a pass reports that it has changed nothing, and has not. -/
structure Settled (strategy : Strategy) (g : Grammar) : Prop where
  split : splitAll.run g = (false, g)
  emptied : replaceEmptyAll.run g = (false, g)
  given : ∀ τ, (giveUpAll strategy τ).run g = (false, g)
  hoisted : hoistAll.run g = (false, g)

theorem settled_of_canonical (hg : Holds rootLabel b J [] g) (hJ : ∀ t ∈ J, Canonical t) : Settled strategy g where
  split := run_eq_of_does (does_splitAll_of_canonical hg hJ)
  emptied := run_eq_of_does (does_replaceEmptyAll_of_canonical hg hJ)
  given _ := run_eq_of_does (does_giveUpAll_of_canonical hg hJ)
  hoisted := run_eq_of_does (does_hoistAll_of_canonical hg hJ)

namespace Runs

/-- As long as the bound allows the passes that it takes, it does not show. -/
theorem passes_eq (hr : Runs strategy g counts h) (hfuel : counts.length ≤ fuel) :
    passes strategy fuel g = (counts, h) := by
  induction hr generalizing fuel with
  | last hp =>
    obtain ⟨fuel, rfl⟩ := Nat.exists_eq_add_of_le' hfuel
    simp only [List.length_singleton, passes, hp, Bool.false_eq_true, ↓reduceIte]
  | next hp _ ih =>
    obtain ⟨fuel, rfl⟩ : ∃ n, fuel = n + 1 := ⟨fuel - 1, by simp only [List.length_cons] at hfuel; omega⟩
    simp only [passes, hp, ↓reduceIte, ih (Nat.le_of_succ_le_succ hfuel)]

end Runs

/-- Every pass lowers the bound on the load of the rules that are not canonical, so that the passes end. -/
theorem exists_runs (hg : Holds rootLabel b J [] g) (hroot : rootLabel.kind ≠ .alt)
    (hS : Stock.Sound ⟨J, b.madeUp⟩) (hstart : b.start.isSome = true) (strategy : Strategy) (hn : Under n J) :
    ∃ counts h, Runs strategy g counts h ∧ counts.length ≤ n + 1 ∧ Settled strategy h := by
  induction n generalizing g b J with
  | zero =>
    have hcan : ∀ t ∈ J, Canonical t := fun t ht => by
      by_contra hc
      exact absurd (hn t ht hc) (Nat.not_lt_zero _)
    exact ⟨_, g, .last (pass_eq_of_canonical hg hcan strategy), Nat.le_refl 1, settled_of_canonical hg hcan⟩
  | succ n ih =>
    have hdoes := does_pass hg hroot hS hstart strategy
    unfold Does at hdoes
    rcases hp : pass strategy g with ⟨c, g₁⟩
    rw [hp] at hdoes
    obtain ⟨J₁, m₁, hg₁, hs₁, hunder, hfalse⟩ := hdoes
    cases c with
    | false => exact ⟨_, g₁, .last hp, Nat.le_add_left 1 _, settled_of_canonical hg₁ (hfalse rfl).2⟩
    | true =>
      obtain ⟨counts, h, hr, hlen, hset⟩ := ih hg₁ (sound_of_steps hs₁ hS) hstart (hunder n hn)
      exact ⟨_, h, .next hp hr, Nat.succ_le_succ hlen, hset⟩

/-- Simplification of a grammar that is understood ends, in either way: its passes come to one after which no
step of a pass changes anything, and the program runs all of them. -/
theorem exists_runs_of_understood (hu : Grammar.understood source = .ok g) (strategy : Strategy) :
    ∃ counts h, Runs strategy g counts h ∧ Settled strategy h ∧
      simplify strategy g = ⟨h, strategy, counts, h.rules.length - g.rules.length⟩ := by
  obtain ⟨rootLabel, b, J, hJ⟩ := exists_isUnderstood hu
  have hn : Under (4 * g.nodes.size + 1) J := fun t ht _ => Nat.lt_succ_of_le (load_le_size hJ.holds ht)
  obtain ⟨counts, h, hr, hlen, hset⟩ :=
    exists_runs hJ.holds (by rw [hJ.root]; exact nofun) hJ.sound hJ.isSome_start strategy hn
  have hfuel : counts.length ≤ passBound g := by
    unfold passBound
    omega
  refine ⟨counts, h, hr, hset, ?_⟩
  rw [simplify, hr.passes_eq hfuel]

theorem exists_runs_of_understood_list : ∃ g, Grammar.understood "list: ['0'-'9']**','." = .ok g ∧
    ∃ counts h, Runs .spec g counts h ∧ Settled .spec h ∧
      simplify .spec g = ⟨h, .spec, counts, h.rules.length - g.rules.length⟩ := by
  obtain ⟨g, hg⟩ := exists_eq_ok (x := Grammar.understood "list: ['0'-'9']**','.") (by decide +kernel)
  exact ⟨g, hg, exists_runs_of_understood hg .spec⟩

end Ixml.Simplify
