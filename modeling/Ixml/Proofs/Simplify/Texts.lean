import Ixml.Proofs.Simplify.Moves

/-!
# Names and texts in a simplification

A grammar draws on a `Lexicon` if its rules and references have no names but those in it, and its terminals no other
texts, whether they are still in place or not (`Grammar.DrawsOn`). The edits that a move is made of take both from nodes
that are there (`Edit.Tame`), apart from the name of the shared rule and the one name that a move makes up
(`drawsOn_make`).
-/

namespace Ixml

/-- What a terminal or an insertion stands for: its text, the code of its class, or the character that its range begins
with. -/
def Label.terminalText? (l : Label) : Option String :=
  match l.kind with
  | .literal _ value => some value.text
  | .insertion value => some value.text
  | .charClass code => some code
  | .range a _ => some (String.singleton a)
  | _ => none

/-- The names of rules, the names of references, and the texts that there may be. -/
structure Lexicon where
  rules : String → Prop
  references : String → Prop
  texts : String → Prop

namespace Lexicon

variable {L L' : Lexicon}

/-- A rule may have a given name, and so may a reference to it. -/
structure Admits (L : Lexicon) (X : String) : Prop where
  rule : L.rules X
  reference : L.references X

/-- Whatever is in `L` is in `L'`. -/
structure Le (L L' : Lexicon) : Prop where
  rules : ∀ X, L.rules X → L'.rules X
  references : ∀ X, L.references X → L'.references X
  texts : ∀ s, L.texts s → L'.texts s

/-- The names and texts of all kinds. -/
def all : Lexicon :=
  ⟨fun _ => True, fun _ => True, fun _ => True⟩

theorem admits_all (X : String) : all.Admits X :=
  ⟨trivial, trivial⟩

end Lexicon

/-- The name or the text of a label is one that there may be. -/
structure Label.DrawsOn (L : Lexicon) (l : Label) : Prop where
  rule : l.kind.isRule = true → L.rules l.nameText
  reference : l.kind.isNonterminal = true → L.references l.nameText
  text : ∀ s, l.terminalText? = some s → L.texts s

/-- The names and texts of all nodes are such that there may be. -/
def Grammar.DrawsOn (L : Lexicon) (g : Grammar) : Prop :=
  ∀ i, (g.node i).toLabel.DrawsOn L

namespace Label.DrawsOn

variable {L L' : Lexicon} {l l' : Label}

theorem mono (h : l.DrawsOn L) (hL : L.Le L') : l.DrawsOn L' :=
  ⟨fun hk => hL.rules _ (h.rule hk), fun hk => hL.references _ (h.reference hk), fun s hs => hL.texts s (h.text s hs)⟩

theorem congr (h : l.DrawsOn L) (hk : l'.kind = l.kind) (hn : l'.nameText = l.nameText) : l'.DrawsOn L := by
  refine ⟨fun hr => ?_, fun hr => ?_, fun s hs => h.text s ?_⟩
  · rw [hn]
    exact h.rule (hk ▸ hr)
  · rw [hn]
    exact h.reference (hk ▸ hr)
  · rwa [terminalText?, ← hk]

theorem quiet {k : Construct} (hr : k.isRule = false) (hn : k.isNonterminal = false)
    (ht : Label.terminalText? { kind := k } = none) : Label.DrawsOn L { kind := k } :=
  ⟨fun hk => absurd (hr.symm.trans hk) nofun, fun hk => absurd (hn.symm.trans hk) nofun,
    fun _ hs => absurd (ht.symm.trans hs) nofun⟩

theorem newReference {X : String} (hX : L.references X) :
    Label.DrawsOn L { kind := .nonterminal none none, name := some X } :=
  ⟨nofun, fun _ => hX, nofun⟩

theorem newRule {X : String} (hX : L.rules X) : Label.DrawsOn L { kind := .rule .hidden none, name := some X } :=
  ⟨fun _ => hX, nofun, nofun⟩

end Label.DrawsOn

namespace Grammar.DrawsOn

variable {L L' : Lexicon} {g : Grammar}

theorem mono (h : g.DrawsOn L) (hL : L.Le L') : g.DrawsOn L' := fun i => (h i).mono hL

theorem of_nodes_eq {g' : Grammar} (h : g.DrawsOn L) (hn : g'.nodes = g.nodes) : g'.DrawsOn L := fun i => by
  rw [node, hn]
  exact h i

theorem push (h : g.DrawsOn L) {l : Label} (hl : l.DrawsOn L) : (g.push l).DrawsOn L := fun i => by
  by_cases hi : i = g.next
  · rw [node, Array.getD_eq_getD_getElem?, hi]
    simpa [Grammar.push, next] using hl
  · rw [Simplify.node_push g l hi]
    exact h i

theorem modify (h : g.DrawsOn L) {f : Node → Node} (hf : ∀ n : Node, n.toLabel.DrawsOn L → (f n).toLabel.DrawsOn L)
    (p : NodeId) : (g.modify p f).DrawsOn L := fun i => by
  rw [node, Grammar.modify, Array.getD_eq_getD_getElem?, Array.getElem?_modify]
  have hi := h i
  rw [node, Array.getD_eq_getD_getElem?] at hi
  split
  · cases hn : g.nodes[i]? with
    | none => simpa [hn] using hi
    | some n => exact hf n (by simpa [hn] using hi)
  · exact hi

theorem setParent (h : g.DrawsOn L) (i : NodeId) (p : Option NodeId) : (g.setParent i p).DrawsOn L :=
  h.modify (f := fun n => { n with parent := p }) (fun _ hn => hn) i

theorem setChildren (h : g.DrawsOn L) (i : NodeId) (f : List NodeId → List NodeId) :
    (g.modify i fun n => { n with children := f n.children }).DrawsOn L :=
  h.modify (f := fun n => { n with children := f n.children }) (fun _ hn => hn) i

theorem append (h : g.DrawsOn L) (p c : NodeId) : (g.append p c).DrawsOn L :=
  (h.setParent c (some p)).setChildren p (· ++ [c])

theorem detach (h : g.DrawsOn L) (i : NodeId) : (g.detach i).DrawsOn L := by
  unfold Grammar.detach
  split
  · exact h
  · exact (h.setParent i none).setChildren _ (·.filter (· ≠ i))

theorem replace (h : g.DrawsOn L) (i j : NodeId) : (g.replace i j).DrawsOn L := by
  unfold Grammar.replace
  split
  · exact h
  · exact ((h.setChildren _ (·.map fun c => if c = i then j else c)).setParent j _).setParent i none

theorem copyTo (h : g.DrawsOn L) (fuel : Nat) (i : NodeId) : (g.copyTo fuel i).DrawsOn L :=
  copyTo_induction (fun _ i h => h.push (h i)) (fun _ p c h => h.append p c) fuel i h

theorem joinRule (h : g.DrawsOn L) (r : NodeId) : (g.joinRule r).DrawsOn L := by
  refine DrawsOn.append ?_ Grammar.root r
  exact h.of_nodes_eq rfl

theorem joinRules (h : g.DrawsOn L) (rs : List NodeId) : (rs.foldl Grammar.joinRule g).DrawsOn L := by
  induction rs generalizing g with
  | nil => exact h
  | cons r rs ih => exact ih (h.joinRule r)

theorem joinWaiting (h : g.DrawsOn L) : g.joinWaiting.DrawsOn L := by
  refine joinRules ?_ g.waiting
  exact h.of_nodes_eq rfl

end Grammar.DrawsOn

namespace Edit

open Simplify

variable {α β : Type} {L : Lexicon} {g : Grammar}

theorem bare_copyTo (g : Grammar) (fuel : Nat) (i : NodeId) : (g.copyTo fuel i).bare = g.bare :=
  Grammar.copyTo_induction (P := fun k => k.bare = g.bare) (fun _ _ h => h) (fun _ _ _ h => h) fuel i rfl

theorem madeUp_eq_of_bare {h : Grammar} (hb : h.bare = g.bare) : h.madeUp = g.madeUp := by
  have := congrArg Grammar.madeUp hb
  exact this

/-- An edit that makes up no name, and after which a grammar draws on a lexicon if it did so before. -/
structure Tame (L : Lexicon) (m : Edit α) : Prop where
  drawsOn : ∀ g, g.DrawsOn L → (m g).2.DrawsOn L
  madeUp : ∀ g, (m g).2.madeUp = g.madeUp

theorem tame_pure (a : α) : Tame L (pure a : Edit α) :=
  ⟨fun _ h => h, fun _ => rfl⟩

theorem Tame.bind {m : Edit α} {k : α → Edit β} (hm : Tame L m) (hk : ∀ a, Tame L (k a)) :
    Tame L (m >>= k) where
  drawsOn g h := (hk (m g).1).drawsOn _ (hm.drawsOn g h)
  madeUp g := ((hk (m g).1).madeUp _).trans (hm.madeUp g)

theorem Tame.get {k : Grammar → Edit α} (hk : ∀ g, Tame L (k g)) : Tame L (MonadState.get >>= k) where
  drawsOn g := (hk g).drawsOn g
  madeUp g := (hk g).madeUp g

theorem tame_forM {f : NodeId → Edit Unit} (hf : ∀ i, Tame L (f i)) (is : List NodeId) : Tame L (is.forM f) := by
  induction is with
  | nil => exact tame_pure ()
  | cons i is ih => exact (hf i).bind fun _ => ih

theorem tame_newNode {l : Label} (hl : l.DrawsOn L) : Tame L (newNode l) :=
  ⟨fun _ h => h.push hl, fun _ => rfl⟩

theorem tame_append (p c : NodeId) : Tame L (append p c) :=
  ⟨fun _ h => h.append p c, fun _ => rfl⟩

theorem tame_detach (i : NodeId) : Tame L (detach i) :=
  ⟨fun _ h => h.detach i, fun g => madeUp_eq_of_bare (bare_detach g i)⟩

theorem tame_replace (i j : NodeId) : Tame L (replace i j) :=
  ⟨fun _ h => h.replace i j, fun g => madeUp_eq_of_bare (bare_replace g i j)⟩

theorem tame_defer (r : NodeId) : Tame L (defer r) :=
  ⟨fun _ h => h.of_nodes_eq rfl, fun _ => rfl⟩

theorem tame_copy (i : NodeId) : Tame L (copy i) :=
  ⟨fun g h => h.copyTo g.depthBound i, fun g => madeUp_eq_of_bare (bare_copyTo g g.depthBound i)⟩

theorem tame_newKind {k : Construct} (hr : k.isRule = false) (hn : k.isNonterminal = false)
    (ht : Label.terminalText? { kind := k } = none) : Tame L (newKind k) :=
  tame_newNode (.quiet hr hn ht)

theorem tame_newReference {X : String} (hX : L.references X) : Tame L (newReference X) :=
  tame_newNode (.newReference hX)

theorem tame_newHiddenRule {X : String} (hX : L.rules X) : Tame L (newHiddenRule X) :=
  tame_newNode (.newRule hX)

theorem tame_addAlt (body : NodeId) (factors : List NodeId) : Tame L (addAlt body factors) :=
  (tame_newKind rfl rfl rfl).bind fun _ => (tame_forM (tame_append _) _).bind fun _ => tame_append ..

theorem tame_takeApart (i : NodeId) : Tame L (takeApart i) := by
  refine .get fun g => (tame_forM tame_detach _).bind fun _ => ?_
  cases g.children i with
  | nil => exact (tame_newKind rfl rfl rfl).bind fun _ => tame_pure _
  | cons factor rest => exact tame_pure _

theorem tame_relabel (i : NodeId) {f : Grammar → Label → Label} (hk : ∀ g l, (f g l).kind = l.kind)
    (hn : ∀ g l, (f g l).nameText = l.nameText) :
    Tame L (modify fun g => g.modify i fun n => { n with toLabel := f g n.toLabel }) where
  drawsOn g h :=
    h.modify (f := fun n => { n with toLabel := f g n.toLabel })
      (fun n hl => hl.congr (hk g n.toLabel) (hn g n.toLabel)) i
  madeUp _ := rfl

theorem tame_referTo {r : NewRule} (hr : L.references r.name) (old : NodeId) : Tame L (referTo r old) := by
  refine (tame_newReference hr).bind fun ref => ?_
  have hoptional : Tame L (modify fun g => g.modify ref fun n =>
      { n with toLabel := { n.toLabel with isOptional := (g.node r.rule).isOptional } }) :=
    tame_relabel ref (f := fun g l => { l with isOptional := (g.node r.rule).isOptional }) (fun _ _ => rfl)
      fun _ _ => rfl
  exact hoptional.bind fun _ => (tame_replace ..).bind fun _ => tame_defer _

/-- After an edit of `g` the grammar draws on a lexicon, if it did so before and if the lexicon has the name for
`source`, should one have been made up. -/
def Coins (L : Lexicon) (source : NodeId) (word : String) (m : Edit α) (g : Grammar) : Prop :=
  ((m g).2.madeUp = g.madeUp + 1 → L.Admits (g.nextName (hint g source) word)) → g.DrawsOn L → (m g).2.DrawsOn L

theorem Tame.coins {m : Edit α} (h : Tame L m) (source : NodeId) (word : String) (g : Grammar) :
    Coins L source word m g :=
  fun _ => h.drawsOn g

theorem Coins.get {k : Grammar → Edit α} {source : NodeId} {word : String} {g : Grammar}
    (h : Coins L source word (k g) g) : Coins L source word (MonadState.get >>= k) g :=
  h

theorem coins_newName_bind {k : String → Edit α} (source : NodeId) (word : String) (g : Grammar)
    (hk : ∀ (L : Lexicon) X, L.Admits X → Tame L (k X)) : Coins L source word (newName source word >>= k) g := by
  intro hX h
  -- whatever the name is, the rest makes up no other
  have hmade : ((newName source word >>= k) g).2.madeUp = g.madeUp + 1 :=
    (hk .all _ (Lexicon.admits_all _)).madeUp g.countName
  exact (hk L _ (hX hmade)).drawsOn g.countName (h.of_nodes_eq rfl)

theorem coins_newRule_bind {k : NewRule → Edit α} (source : NodeId) (word : String) (g : Grammar)
    (hk : ∀ (L : Lexicon) r, L.Admits r.name → Tame L (k r)) : Coins L source word (newRule source word >>= k) g := by
  refine coins_newName_bind (k := fun X => newHiddenRule X >>= fun rule => newKind .alts >>= fun body =>
    append rule body >>= fun _ => k ⟨rule, body, X⟩) source word g fun L X hX => ?_
  exact (tame_newHiddenRule hX.rule).bind fun _ => (tame_newKind rfl rfl rfl).bind fun _ =>
    (tame_append ..).bind fun _ => hk L _ hX

end Edit

namespace Simplify

open Edit

variable {α : Type} {L : Lexicon} {g : Grammar}

theorem tame_splitOff (rule alt : NodeId) : Tame L (splitOff rule alt) := by
  refine (tame_detach alt).bind fun _ => ?_
  have hrest (copy : NodeId) : Tame L (append copy alt >>= fun _ => defer copy) :=
    (tame_append ..).bind fun _ => tame_defer _
  -- the new rule has the name of the old one
  refine ⟨fun g h => (hrest _).drawsOn _ (h.push ((h rule).congr rfl ?_)), fun g => (hrest _).madeUp _⟩
  rfl

theorem tame_splitRule (rule : NodeId) : Tame L (splitRule rule) := by
  refine .get fun g => ?_
  split
  · exact (tame_newKind rfl rfl rfl).bind fun _ => (tame_append ..).bind fun _ => tame_pure _
  · split
    · refine (tame_detach _).bind fun _ => ?_
      have hrest (first : NodeId) (alts : List NodeId) : Tame L (do
          detach first
          append rule first
          alts.forM (splitOff rule)
          return true) :=
        (tame_detach _).bind fun _ => (tame_append ..).bind fun _ => (tame_forM (tame_splitOff rule) _).bind fun _ =>
          tame_pure _
      dsimp only
      split
      · exact (tame_newKind rfl rfl rfl).bind fun _ => hrest ..
      · exact hrest ..
    · exact tame_pure _

theorem tame_addEmptyRule (hE : L.Admits emptyRule) : Tame L addEmptyRule := by
  refine .get fun g => ?_
  split
  · refine (tame_newHiddenRule hE.rule).bind fun r => (tame_newKind rfl rfl rfl).bind fun _ => ?_
    have hjoin : Tame L (modify (·.joinRule r) : Edit Unit) := ⟨fun _ h => h.joinRule r, fun _ => rfl⟩
    exact (tame_append ..).bind fun _ => hjoin
  · exact tame_pure _

theorem tame_replaceEmpty (hE : L.Admits emptyRule) (group : NodeId) : Tame L (replaceEmpty group) :=
  (tame_newReference hE.reference).bind fun _ => tame_replace ..

theorem tame_inner (inner : Option NodeId) : Tame L (inner.forM detach) := by
  cases inner with
  | none => exact tame_pure _
  | some i => exact tame_detach i

theorem coins_separatedStar (strategy : Strategy) (i : NodeId) (g : Grammar) :
    Coins L i Sugar.separatedStar.suffix (separatedStar strategy i) g := by
  refine coins_newRule_bind i _ g fun L r hr => (tame_takeApart i).bind fun (factor, sep) => ?_
  refine (tame_newKind rfl rfl rfl).bind fun plus => (tame_append ..).bind fun _ => ?_
  have hsep : Tame L (sep.forM (append plus)) := by
    cases sep with
    | none => exact tame_pure _
    | some s => exact tame_append ..
  refine hsep.bind fun _ => ?_
  cases strategy with
  | spec =>
    exact (tame_newKind rfl rfl rfl).bind fun _ => (tame_append ..).bind fun _ => (tame_addAlt ..).bind fun _ =>
      tame_referTo hr.reference i
  | alternate => exact (tame_addAlt ..).bind fun _ => (tame_addAlt ..).bind fun _ => tame_referTo hr.reference i

theorem coins_separatedPlus (strategy : Strategy) (i : NodeId) (g : Grammar) :
    Coins L i Sugar.separatedPlus.suffix (separatedPlus strategy i) g := by
  refine coins_newRule_bind i _ g fun L r hr => (tame_takeApart i).bind fun (factor, sep) => .get fun g => ?_
  refine (tame_copy factor).bind fun again => ?_
  cases strategy with
  | spec =>
    exact (tame_newKind rfl rfl rfl).bind fun _ => (tame_inner _).bind fun _ => (tame_addAlt ..).bind fun _ =>
      (tame_newKind rfl rfl rfl).bind fun _ => (tame_append ..).bind fun _ => (tame_addAlt ..).bind fun _ =>
        tame_referTo hr.reference i
  | alternate =>
    exact (tame_addAlt ..).bind fun _ => (tame_inner _).bind fun _ => (tame_newReference hr.reference).bind fun _ =>
      (tame_addAlt ..).bind fun _ => tame_referTo hr.reference i

theorem coins_star (strategy : Strategy) (i : NodeId) (g : Grammar) :
    Coins L i Sugar.star.suffix (star strategy i) g := by
  cases strategy with
  | spec =>
    have htame : Tame L (star .spec i) := (tame_takeApart i).bind fun (factor, _) =>
      (tame_newKind rfl rfl rfl).bind fun _ => (tame_append ..).bind fun _ => (tame_newKind rfl rfl rfl).bind fun _ =>
        (tame_append ..).bind fun _ => tame_replace ..
    exact htame.coins i _ g
  | alternate =>
    refine coins_newRule_bind i _ g fun L r hr => (tame_takeApart i).bind fun (factor, _) => ?_
    exact (tame_addAlt ..).bind fun _ => (tame_newReference hr.reference).bind fun _ => (tame_addAlt ..).bind fun _ =>
      tame_referTo hr.reference i

theorem coins_plus (i : NodeId) (g : Grammar) : Coins L i Sugar.plus.suffix (plus i) g := by
  refine coins_newRule_bind i _ g fun L r hr => (tame_takeApart i).bind fun (factor, _) => ?_
  exact (tame_copy factor).bind fun _ => (tame_addAlt ..).bind fun _ => (tame_newReference hr.reference).bind fun _ =>
    (tame_addAlt ..).bind fun _ => tame_referTo hr.reference i

theorem coins_option (i : NodeId) (g : Grammar) : Coins L i Sugar.option.suffix (option i) g := by
  refine .get ?_
  split
  · exact (tame_detach i).coins i Sugar.option.suffix g
  · split
    · exact ((tame_detach _).bind fun _ => tame_replace ..).coins i Sugar.option.suffix g
    · refine coins_newRule_bind i _ g fun L r hr => ?_
      have hoptional : Tame L (modify fun g => g.modify r.rule fun n =>
          { n with toLabel := { n.toLabel with isOptional := true } }) :=
        tame_relabel r.rule (f := fun _ l => { l with isOptional := true }) (fun _ _ => rfl) fun _ _ => rfl
      exact hoptional.bind fun _ => (tame_detach _).bind fun _ => (tame_addAlt ..).bind fun _ =>
        (tame_addAlt ..).bind fun _ => tame_referTo hr.reference i

theorem coins_giveUp (strategy : Strategy) (t : Sugar) (i : NodeId) (g : Grammar) :
    Coins L i t.suffix (giveUp strategy t i) g := by
  cases t with
  | separatedStar => exact coins_separatedStar strategy i g
  | separatedPlus => exact coins_separatedPlus strategy i g
  | star => exact coins_star strategy i g
  | plus => exact coins_plus i g
  | option => exact coins_option i g

theorem coins_giveUpBelowRoot (strategy : Strategy) (t : Sugar) (i : NodeId) (g : Grammar) :
    Coins L i t.suffix (giveUpBelowRoot strategy t i) g := by
  refine .get ?_
  split
  · exact coins_giveUp strategy t i g
  · exact (tame_pure false).coins i t.suffix g

theorem coins_hoist (i : NodeId) (g : Grammar) : Coins L i "alts" (hoist i) g := by
  refine coins_newName_bind i "alts" g fun L X hX => (tame_newHiddenRule hX.rule).bind fun rule => ?_
  have hrest : Tame L (do
      let ref ← newReference X
      replace i ref
      append rule i
      defer rule) :=
    (tame_newReference hX.reference).bind fun _ => (tame_replace ..).bind fun _ => (tame_append ..).bind fun _ =>
      tame_defer _
  -- the pragmas move from the group to the rule; they are neither names nor texts
  refine ⟨fun g h => hrest.drawsOn _ ?_, fun g => hrest.madeUp _⟩
  have h := h.modify (f := fun n => { n with pragmas := [] }) (fun _ hl => hl.congr rfl rfl) i
  exact h.modify (f := fun n => { n with pragmas := (g.node i).pragmas }) (fun _ hl => hl.congr rfl rfl) rule

/-- The node that a move names a rule after, and the last word of the name. -/
def Move.source? : Move → Option (NodeId × String)
  | giveUp sort construct => some (construct, sort.suffix)
  | hoist group => some (group, "alts")
  | _ => none

theorem underscore_notMem_word {mv : Move} {c : NodeId} {word : String} (h : mv.source? = some (c, word)) : '_' ∉ word.toList := by
  cases mv with
  | giveUp t i =>
    obtain ⟨-, rfl⟩ := Prod.mk.inj (Option.some.inj h)
    cases t <;> decide
  | hoist i =>
    obtain ⟨-, rfl⟩ := Prod.mk.inj (Option.some.inj h)
    decide
  | _ => cases h

/-- A move adds no name but that of the shared rule and the one that it makes up, and no text. -/
theorem drawsOn_make (strategy : Strategy) (mv : Move) (hE : L.Admits emptyRule)
    (hX : (mv.make strategy g).madeUp = g.madeUp + 1 → ∀ c word, mv.source? = some (c, word) →
      L.Admits (g.nextName (hint g c) word)) (h : g.DrawsOn L) : (mv.make strategy g).DrawsOn L := by
  cases mv with
  | split rule => exact (tame_splitRule rule).drawsOn g h
  | share => exact (tame_addEmptyRule hE).drawsOn g h
  | empty group => exact (tame_replaceEmpty hE group).drawsOn g h
  | giveUp t c => exact coins_giveUpBelowRoot strategy t c g (fun hm => hX hm c _ rfl) h
  | hoist group => exact coins_hoist group g (fun hm => hX hm group _ rfl) h
  | join => exact h.joinWaiting

end Simplify

end Ixml
