import Ixml.Document.Draft
import Ixml.Proofs.Work
import Ixml.Proofs.Xml.Text
import Mathlib.Data.List.Nodup

/-!
# Drafts that can be written

With both checks of the options on, whatever a draft holds can be written as XML: names are names, an element has each
of its attributes once and none that would declare a prefix, and all texts consist of characters of XML. This is
`Draft.IsSound`, which every event keeps (`Draft.ensures_step`) as long as the names of nonterminals, which wrappers
show, are such texts too.
-/

namespace Ixml

open Xml (isName IsText)

variable {ns : Option String}

namespace Assoc

variable {key value : String} {a : Assoc}

theorem insert_of_has_eq_false (h : has key a = false) : insert key value a = a ++ [(key, value)] := by
  induction a with
  | nil => rfl
  | cons p rest ih =>
    obtain ⟨k, v⟩ := p
    rw [has, find?] at h
    split at h
    · cases h
    · rename_i hk
      rw [insert, if_neg hk, ih h, List.cons_append]

theorem has_eq_true_iff : has key a = true ↔ key ∈ a.map Prod.fst := by
  induction a with
  | nil => simp [has]
  | cons p rest ih =>
    obtain ⟨k, v⟩ := p
    rw [has, find?]
    split
    · rename_i hk
      simp [hk]
    · rename_i hk
      rw [← has, ih, List.map_cons, List.mem_cons]
      exact ⟨Or.inr, fun h => h.resolve_left fun he => hk he.symm⟩

end Assoc

/-- What a tag shows of the head of an element can be written. The namespace is that of the grammar, if there is one. -/
structure ElementHead.IsSound (ns : Option String) (head : ElementHead) : Prop where
  name : isName head.name = true
  uri : head.ns = none ∨ head.ns = ns
  attributes : ∀ a ∈ head.attributes, isName a.1 = true ∧ IsText a.2 ∧ Draft.isReserved a.1 = false
  different : (head.attributes.map Prod.fst).Nodup

namespace Content

mutual

/-- A content can be written: its texts are not empty and consist of characters of XML. -/
def IsSound (ns : Option String) : Content → Prop
  | text s => s ≠ "" ∧ IsText s
  | element head cs => head.IsSound ns ∧ AllSound ns cs

def AllSound (ns : Option String) : List Content → Prop
  | [] => True
  | c :: cs => IsSound ns c ∧ AllSound ns cs

end

variable {c : Content} {cs : List Content}

theorem allSound_push (hc : c.IsSound ns) (hcs : AllSound ns cs) : AllSound ns (push c cs) := by
  induction cs with
  | nil => exact ⟨hc, trivial⟩
  | cons d ds ih =>
    cases ds with
    | cons e ds => exact ⟨hcs.1, ih hcs.2⟩
    | nil =>
      cases d with
      | element head es => exact ⟨hcs.1, hc, trivial⟩
      | text s =>
        cases c with
        | element head es => exact ⟨hcs.1, hc, trivial⟩
        | text t => exact ⟨⟨by simp [hc.1], Xml.isText_append.mpr ⟨hcs.1.2, hc.2⟩⟩, trivial⟩

mutual

theorem isText_allText {c : Content} (h : c.IsSound ns) : IsText c.allText := by
  cases c with
  | text s => exact h.2
  | element head cs => exact isText_allTexts h.2

theorem isText_allTexts {cs : List Content} (h : AllSound ns cs) : IsText (allTexts cs) := by
  cases cs with
  | nil => exact Xml.isText_empty
  | cons c cs => exact Xml.isText_append.mpr ⟨isText_allText h.1, isText_allTexts h.2⟩

end

end Content

/-- What an open nonterminal holds can be written. -/
def OpenSymbol.IsSound (ns : Option String) : OpenSymbol → Prop
  | element _ head cs _ => head.IsSound ns ∧ Content.AllSound ns cs
  | attr _ name value => isName name = true ∧ IsText value
  | omitted _ => True
  | insertion _ => True

/-- The name of a nonterminal can be written, and no other namespace comes with it than that of the grammar. -/
structure Attributes.IsSound (ns : Option String) (a : Attributes) : Prop where
  name : IsText a.name
  uri : a.get? xmlnsKey = none ∨ a.get? xmlnsKey = ns

namespace Draft

/-- Names and characters are checked, and all that the draft holds can be written. -/
structure IsSound (ns : Option String) (b : Draft) : Prop where
  names : b.options.assertValidXmlNames = true
  characters : b.options.assertValidXmlCharacters = true
  uri : b.defaultNamespace = ns
  stack : ∀ n ∈ b.stack, n.IsSound ns
  top : Content.AllSound ns b.top

variable {b : Draft} {c : Content} {stack stack' rest : List OpenSymbol} {n : OpenSymbol} {name value : String}

theorem IsSound.push (h : b.IsSound ns) (hn : n.IsSound ns) : IsSound ns { b with stack := n :: b.stack } :=
  ⟨h.names, h.characters, h.uri, List.forall_mem_cons.mpr ⟨hn, h.stack⟩, h.top⟩

theorem IsSound.pop (h : b.IsSound ns) (hb : b.stack = n :: rest) : n.IsSound ns ∧ IsSound ns { b with stack := rest } := by
  have hs := h.stack
  rw [hb, List.forall_mem_cons] at hs
  exact ⟨hs.1, h.names, h.characters, h.uri, hs.2, h.top⟩

theorem isSound_place (hc : c.IsSound ns) (hs : ∀ n ∈ stack, n.IsSound ns) (h : place c stack = some stack') :
    ∀ n ∈ stack', n.IsSound ns := by
  induction stack generalizing stack' with
  | nil => cases h
  | cons n rest ih =>
    obtain ⟨hn, hrest⟩ := List.forall_mem_cons.mp hs
    -- what is transparent passes the content on
    have hpass (h : (place c rest).map (n :: ·) = some stack') : ∀ n ∈ stack', n.IsSound ns := by
      obtain ⟨rest', hr, rfl⟩ := Option.map_eq_some_iff.mp h
      exact List.forall_mem_cons.mpr ⟨hn, ih hrest hr⟩
    cases n with
    | element s head children d =>
      cases h
      exact List.forall_mem_cons.mpr ⟨⟨hn.1, Content.allSound_push hc hn.2⟩, hrest⟩
    | attr s name value =>
      cases h
      exact List.forall_mem_cons.mpr ⟨⟨hn.1, Xml.isText_append.mpr ⟨hn.2, Content.isText_allText hc⟩⟩, hrest⟩
    | omitted s => exact hpass h
    | insertion s => exact hpass h

theorem IsSound.give (hc : c.IsSound ns) (h : b.IsSound ns) : (b.give c).IsSound ns := by
  unfold Draft.give
  cases hp : place c b.stack with
  | some stack => exact ⟨h.names, h.characters, h.uri, isSound_place hc h.stack hp, h.top⟩
  | none => exact ⟨h.names, h.characters, h.uri, h.stack, Content.allSound_push hc h.top⟩

theorem isSound_attach (hn : isName name = true) (hv : IsText value) (hr : isReserved name = false)
    (hs : ∀ n ∈ stack, n.IsSound ns) (h : attach name value stack = .ok stack') : ∀ n ∈ stack', n.IsSound ns := by
  induction stack generalizing stack' with
  | nil => cases h
  | cons n rest ih =>
    obtain ⟨hns, hrest⟩ := List.forall_mem_cons.mp hs
    have hpass (h : (attach name value rest).map (n :: ·) = .ok stack') : ∀ n ∈ stack', n.IsSound ns := by
      cases ha : attach name value rest with
      | error e => rw [ha] at h; cases h
      | ok rest' =>
        rw [ha] at h
        cases h
        exact List.forall_mem_cons.mpr ⟨hns, ih hrest ha⟩
    cases n with
    | element s head children d =>
      rw [attach] at h
      split at h
      · exact hpass h
      split at h
      · cases h
      rename_i hhas
      cases h
      obtain ⟨hhead, hchildren⟩ := hns
      have hhas : Assoc.has name head.attributes = false := by simpa using hhas
      refine List.forall_mem_cons.mpr ⟨⟨⟨hhead.name, hhead.uri, fun a ha => ?_, ?_⟩, hchildren⟩, hrest⟩
      · rw [Assoc.insert_of_has_eq_false hhas, List.mem_append, List.mem_singleton] at ha
        rcases ha with ha | rfl
        · exact hhead.attributes a ha
        · exact ⟨hn, hv, hr⟩
      · have hnew : name ∉ head.attributes.map Prod.fst := by
          rw [← Assoc.has_eq_true_iff, hhas]
          exact Bool.false_ne_true
        rw [Assoc.insert_of_has_eq_false hhas, List.map_append, List.map_singleton]
        exact List.nodup_append_comm.mp (List.nodup_cons.mpr ⟨hnew, hhead.different⟩)
    | attr s name value => exact hpass h
    | omitted s => exact hpass h
    | insertion s => exact hpass h

/-! ### What an event does -/

theorem ensures_giveText (h : b.IsSound ns) (s : String) : (giveText s).Ensures b fun _ b' => b'.IsSound ns := by
  unfold giveText
  split
  · exact .pure h
  rename_i hs
  refine .current ?_
  rw [if_pos h.characters]
  split
  · exact .throw _ _
  rename_i hc
  refine (Work.Ensures.update _ b).mono fun _ b' hb => hb ▸ h.give ⟨by simpa using hs, ?_⟩
  exact Xml.firstInvalid?_eq_none_iff.mp hc

theorem ensures_checkName (h : b.IsSound ns) (name : String) :
    (checkName name).Ensures b fun _ b' => b' = b ∧ isName name = true := by
  refine .current ?_
  rw [h.names, Bool.true_and]
  split
  · exact .throw _ _
  · rename_i hn
    exact .pure ⟨rfl, by simpa using hn⟩

theorem ensures_opened (h : b.IsSound ns) {a : Attributes} (ha : a.IsSound ns) :
    (opened a).Ensures b fun n b' => n.IsSound ns ∧ b'.IsSound ns := by
  refine .current ?_
  split
  · exact (ensures_giveText h _).bind fun _ b' h' => .pure ⟨trivial, h'⟩
  split
  · exact .pure ⟨trivial, h⟩
  split
  · exact (ensures_checkName h _).bind fun _ b' ⟨hb, hn⟩ => .pure ⟨⟨hn, Xml.isText_empty⟩, hb ▸ h⟩
  split
  · split
    · refine .pure ⟨⟨⟨?_, Or.inl rfl, ?_, ?_⟩, trivial⟩, h⟩
      · show isName Content.wrapperName = true
        decide
      · rintro x hx
        rw [List.mem_singleton.mp hx]
        exact ⟨(by decide : isName "name" = true), ha.name, (by decide : isReserved "name" = false)⟩
      · exact List.nodup_singleton _
    · exact .pure ⟨trivial, h⟩
  · refine (ensures_checkName h _).bind fun _ b' ⟨hb, hn⟩ => .pure ⟨⟨⟨hn, ha.uri, ?_, ?_⟩, trivial⟩, hb ▸ h⟩
    · exact fun x hx => (List.not_mem_nil hx).elim
    · exact List.nodup_nil

theorem ensures_closed (h : b.IsSound ns) (hn : n.IsSound ns) : (closed n).Ensures b fun _ b' => b'.IsSound ns := by
  cases n with
  | element s head children discard =>
    rw [closed]
    split
    · exact (Work.Ensures.detail _ b).mono fun _ b' hb => hb ▸ h
    · exact (Work.Ensures.update _ b).mono fun _ b' hb => hb ▸ h.give hn
  | attr s name value =>
    rw [closed]
    split
    · exact .throw _ _
    rename_i hr
    refine .current ?_
    split
    · rename_i stack hstack
      refine (Work.Ensures.update _ b).mono fun _ b' hb => hb ▸ ⟨h.names, h.characters, h.uri, ?_, h.top⟩
      exact isSound_attach hn.1 hn.2 (by simpa using hr) h.stack hstack
    · exact .throw _ _
  | omitted s => exact .pure h
  | insertion s => exact .pure h

theorem ensures_step (h : b.IsSound ns) {e : DerivationEvent} (he : ∀ a, e = .opens a → a.IsSound ns) :
    (step e).Ensures b fun _ b' => b'.IsSound ns := by
  cases e with
  | opens a =>
    refine (ensures_opened h (he a rfl)).bind fun n b' ⟨hn, h'⟩ => ?_
    exact (Work.Ensures.update _ b').mono fun _ b'' hb => hb ▸ h'.push hn
  | closes a =>
    refine .current ?_
    split
    · exact .throw _ _
    · rename_i n rest hb
      obtain ⟨hn, h'⟩ := h.pop hb
      refine (Work.Ensures.update _ b).bind fun _ b' hb' => ?_
      subst hb'
      split
      · exact ensures_closed h' hn
      · exact .throw _ _
  | matched c a =>
    rw [step]
    split
    · exact .pure h
    · exact ensures_giveText h _

end Draft

end Ixml
