import Ixml.Proofs.Grammar.Goals
import Ixml.Proofs.Grammar.Soundness

/-!
# Readers follow the goals

A reader takes tokens as the stack of goals does that it has in front of it, and ends with the stack that is due after
it. If it fails, a goal refuses the next token, and the error is placed at that token or a fixed number of tokens after
it (`Follows`).
-/

namespace Ixml.Reader

open Text (Position)
open Goal (Goes)

/-- The tokens, without their places. -/
def tokens (ts : List Token.Placed) : List Token :=
  ts.map (·.token)

@[simp] theorem tokens_nil : tokens [] = [] :=
  rfl

@[simp] theorem tokens_cons (t : Token.Placed) (ts : List Token.Placed) : tokens (t :: ts) = t.token :: tokens ts :=
  rfl

@[simp] theorem tokens_append (ts ts' : List Token.Placed) : tokens (ts ++ ts') = tokens ts ++ tokens ts' :=
  List.map_append

theorem head?_tokens (ts : List Token.Placed) : (tokens ts).head? = ts.head?.map (·.token) :=
  List.head?_map

theorem exists_cons_of_head? {ts : List Token.Placed} {u : Token} (h : (tokens ts).head? = some u) :
    ∃ t rest, ts = t :: rest ∧ t.token = u := by
  cases ts with
  | nil => cases h
  | cons t rest => exact ⟨t, rest, rfl, Option.some.inj h⟩

/-- The place of the next token, or the last place if there is none. -/
def place (last : Position) (ts : List Token.Placed) : Position :=
  match ts.head? with
  | some t => t.position
  | none => last

/-- How the messages begin of the errors that are found when the token at fault has been taken. -/
@[simp] def lateMessages : List String :=
  ["Expected version string, got ", "Expected rule name, got ", "Expected string or #hex, got ",
    "Range bound must be a single character, got "]

@[simp] def isLate (message : String) : Bool :=
  lateMessages.any fun s => s.toList.isPrefixOf message.toList

/-- Whether a minus sign is next after a string that cannot begin a range. -/
def opensBadRange (ws vs : List Token) : Bool :=
  match ws.getLast?, vs.head? with
  | some (.string s), some .minus => s.length != 1
  | _, _ => false

/-- How many tokens after the one at fault an error is placed. Before that token are `ws`, and from it on `vs`. -/
def lag (message : String) (ws vs : List Token) : Nat :=
  if isLate message then
    if opensBadRange ws vs then 2 else 1
  else 0

theorem opensBadRange_append (ws vs : List Token) (u : Token) :
    opensBadRange (ws ++ [u]) vs = opensBadRange [u] vs := by
  rw [opensBadRange, List.getLast?_append]
  rfl

theorem opensBadRange_of_ne {ws vs : List Token} (h : vs.head? ≠ some .minus) : opensBadRange ws vs = false := by
  unfold opensBadRange
  split
  · rename_i hminus
    exact absurd hminus h
  · rfl

theorem opensBadRange_singleton {u : Token} {vs : List Token} (hu : ∀ s, u = .string s → s.length = 1) :
    opensBadRange [u] vs = false := by
  unfold opensBadRange
  split
  · rename_i s hlast _
    rw [hu s (Option.some.inj hlast)]
    rfl
  · rfl

/-- An error is found where a goal refuses the next token. The tokens `pre` are before `ts`. -/
def Halts (last : Position) (S : List Goal) (pre : List Token) (ts : List Token.Placed) (e : Error) : Prop :=
  ∃ ws vs g K, ts = ws ++ vs ∧ Goes S (tokens ts) (g :: K) (tokens vs) ∧ g.look (tokens vs).head? = .stop ∧
    ∀ message p, e = .syntaxError message p →
      p = place last (vs.drop (lag message (pre ++ tokens ws) (tokens vs)))

/-- From the stack `S` a reader gets to the stack `T` and takes `n` tokens or more, or it fails where a goal refuses
the next token. The tokens `pre` are before `ts`. -/
def Follows {α : Type} (last : Position) (n : Nat) (m : Reader α) (S T : List Goal) (pre : List Token)
    (ts : List Token.Placed) : Prop :=
  match m ts with
  | .ok (_, rest) => ∃ ws, ts = ws ++ rest ∧ n ≤ ws.length ∧ Goes S (tokens ts) T (tokens rest)
  | .error e => Halts last S pre ts e

variable {α β : Type} {m : Reader α} {f : α → Reader β} {S T U K : List Goal} {g : Goal} {γ : List Goal}
  {pre us : List Token} {t : Token.Placed} {ts ws rest : List Token.Placed} {e : Error} {a : α} {n n' : Nat}
  {last : Position} {message : String}

theorem Halts.of_goes (hts : ts = ws ++ rest) (hgo : Goes S (tokens ts) T (tokens rest))
    (h : Halts last T (pre ++ tokens ws) rest e) : Halts last S pre ts e := by
  obtain ⟨ws', vs, g, K, rfl, hgo', hstop, hp⟩ := h
  refine ⟨ws ++ ws', vs, g, K, by rw [hts, List.append_assoc], hgo.trans hgo', hstop, ?_⟩
  rwa [tokens_append, ← List.append_assoc]

theorem Halts.of_stop (h : g.look (tokens ts).head? = .stop)
    (hp : ∀ message p, e = .syntaxError message p → p = place last (ts.drop (lag message pre (tokens ts)))) :
    Halts last (g :: K) pre ts e :=
  ⟨[], ts, g, K, rfl, .refl _ _, h, by rwa [tokens_nil, List.append_nil]⟩

/-- The error is found when the token at fault has been taken. If it is one of syntax, it is placed at the token that is
next then, which is the first of `ts`. -/
def IsPlacedLate (last : Position) (ts : List Token.Placed) (e : Error) : Prop :=
  ∀ message p, e = .syntaxError message p → isLate message = true ∧ p = place last ts

theorem Halts.of_late (hg : g.look (tokens ts).head? = .stop) (he : IsPlacedLate last ts.tail e)
    (hbad : opensBadRange pre (tokens ts) = false) : Halts last (g :: K) pre ts e := by
  refine .of_stop hg fun message p h => ?_
  obtain ⟨hlate, rfl⟩ := he message p h
  rw [lag, if_pos hlate, hbad, if_neg Bool.false_ne_true, List.drop_one]

namespace Follows

theorem of_error (hm : m ts = .error e) (h : Halts last S pre ts e) : Follows last n m S T pre ts := by
  rw [Follows, hm]
  exact h

theorem of_ok (hm : m ts = .ok (a, rest)) (hts : ts = ws ++ rest) (hn : n ≤ ws.length)
    (h : Goes S (tokens ts) T (tokens rest)) : Follows last n m S T pre ts := by
  rw [Follows, hm]
  exact ⟨ws, hts, hn, h⟩

theorem of_eq {m' : Reader α} (hm : m ts = m' ts) (h : Follows last n m' S T pre ts) :
    Follows last n m S T pre ts := by
  rwa [Follows, hm]

theorem pure (h : Goes S (tokens ts) T (tokens ts)) : Follows last 0 (Pure.pure a : Reader α) S T pre ts :=
  of_ok rfl (List.nil_append ts).symm (Nat.zero_le _) h

theorem mono (h : Follows last n m S T pre ts) (hn : n' ≤ n) : Follows last n' m S T pre ts := by
  unfold Follows at h ⊢
  split at h
  · obtain ⟨ws, hts, hws, hgo⟩ := h
    exact ⟨ws, hts, Nat.le_trans hn hws, hgo⟩
  · exact h

theorem zero (h : Follows last n m S T pre ts) : Follows last 0 m S T pre ts :=
  h.mono (Nat.zero_le n)

theorem step (hm : m ts = .ok (a, rest)) (hts : ts = ws ++ rest) (hgo : Goes S (tokens ts) T (tokens rest))
    (h : Follows last n (f a) T U (pre ++ tokens ws) rest) : Follows last (ws.length + n) (m >>= f) S U pre ts := by
  have hrun : (m >>= f) ts = f a rest := by rw [bind_run, hm]; rfl
  unfold Follows at h ⊢
  rw [hrun]
  split at h
  · obtain ⟨ws', hts', hn, hgo'⟩ := h
    exact ⟨ws ++ ws', by rw [hts, hts', List.append_assoc], by rw [List.length_append]; omega, hgo.trans hgo'⟩
  · exact h.of_goes hts hgo

theorem bind (h : Follows last n m S T pre ts)
    (hf : ∀ a ws rest, m ts = .ok (a, rest) → ts = ws ++ rest → n ≤ ws.length →
      Follows last 0 (f a) T U (pre ++ tokens ws) rest) : Follows last n (m >>= f) S U pre ts := by
  unfold Follows at h
  split at h
  case h_1 a rest hm =>
    obtain ⟨ws, hts, hn, hgo⟩ := h
    exact (step hm hts hgo (hf a ws rest hm hts hn)).mono hn
  case h_2 e hm => exact of_error (by rw [bind_run, hm]; rfl) h

theorem bind_of_eq (hm : m ts = .ok (a, ts)) (h : Follows last n (f a) S T pre ts) :
    Follows last n (m >>= f) S T pre ts := by
  have hstep : Follows last (0 + n) (m >>= f) S T pre ts :=
    step hm (List.nil_append ts).symm (.refl _ _) (by rwa [tokens_nil, List.append_nil])
  exact hstep.mono (Nat.le_add_left n 0)

theorem peek_bind {f : Option Token → Reader β} (h : Follows last n (f (tokens ts).head?) S T pre ts) :
    Follows last n (peek >>= f) S T pre ts :=
  bind_of_eq (by rw [head?_tokens]; rfl) h

theorem sees_bind {p : Token → Bool} {f : Bool → Reader β}
    (h : Follows last n (f ((tokens ts).head?.any p)) S T pre ts) : Follows last n (sees p >>= f) S T pre ts :=
  bind_of_eq (by rw [head?_tokens]; rfl) h

theorem sees_ite {p : Token → Bool} {m m' : Reader β}
    (h : ∀ t rest, ts = t :: rest → p t.token = true → Follows last n m S T pre ts)
    (h' : (tokens ts).head?.any p = false → Follows last n m' S T pre ts) :
    Follows last n (sees p >>= fun b => if b = true then m else m') S T pre ts := by
  refine sees_bind ?_
  cases hp : (tokens ts).head?.any p with
  | false => exact h' hp
  | true =>
    cases ts with
    | nil => cases hp
    | cons t rest => exact h t rest rfl hp

theorem sees_not_ite {p : Token → Bool} {m m' : Reader β}
    (h : ∀ t rest, ts = t :: rest → p t.token = true → Follows last n m' S T pre ts)
    (h' : (tokens ts).head?.any p = false → Follows last n m S T pre ts) :
    Follows last n (sees p >>= fun b => if (!b) = true then m else m') S T pre ts := by
  have hite : (fun b => if (!b) = true then m else m') = fun b => if b = true then m' else m :=
    funext fun b => by cases b <;> rfl
  rw [hite]
  exact sees_ite h h'

theorem atEnd_bind {f : Bool → Reader β} (h : Follows last n (f ts.isEmpty) S T pre ts) :
    Follows last n (atEnd >>= f) S T pre ts :=
  bind_of_eq rfl h

theorem atAltEnd_bind {f : Bool → Reader β}
    (h : Follows last n (f ((tokens ts).head?.all isAltEnd)) S T pre ts) :
    Follows last n (atAltEnd >>= f) S T pre ts := by
  refine bind_of_eq ?_ h
  cases ts <;> rfl

theorem get_bind {f : List Token.Placed → Reader β} (h : Follows last n (f ts) S T pre ts) :
    Follows last n (get >>= f) S T pre ts :=
  bind_of_eq rfl h

theorem lift_bind {x : Except Error α} (hx : x = .ok a) (h : Follows last n (f a) S T pre ts) :
    Follows last n ((liftM x : Reader α) >>= f) S T pre ts :=
  bind_of_eq (by rw [hx]; rfl) h

theorem discard_bind {f : Unit → Reader β} (hg : g.look (some t.token) = .take γ)
    (h : Follows last 0 (f ()) (γ ++ K) T (pre ++ [t.token]) ts) :
    Follows last 1 (discard take >>= f) (g :: K) T pre (t :: ts) := by
  have hrun : discard take (t :: ts) = .ok ((), ts) := rfl
  exact step hrun (List.singleton_append).symm (.take hg (.refl _ _)) h

theorem take_bind {f : Option Token → Reader β} (hg : g.look (some t.token) = .take γ)
    (h : Follows last 0 (f (some t.token)) (γ ++ K) T (pre ++ [t.token]) ts) :
    Follows last 1 (take >>= f) (g :: K) T pre (t :: ts) := by
  have hrun : take (t :: ts) = .ok (some t.token, ts) := rfl
  exact step hrun (List.singleton_append).symm (.take hg (.refl _ _)) h

theorem goes (hgo : Goes S (tokens ts) T (tokens ts)) (h : Follows last n m T U pre ts) :
    Follows last n m S U pre ts := by
  unfold Follows at h ⊢
  split at h
  · obtain ⟨ws, hts, hws, hgo'⟩ := h
    exact ⟨ws, hts, hws, hgo.trans hgo'⟩
  · exact Halts.of_goes (List.nil_append ts).symm hgo (by rwa [tokens_nil, List.append_nil])

theorem pass (hg : g.look (tokens ts).head? = .pass γ) (h : Follows last n m (γ ++ K) T pre ts) :
    Follows last n m (g :: K) T pre ts :=
  h.goes (.pass hg (.refl _ _))

theorem fail (hg : g.look (tokens ts).head? = .stop) (hm : isLate message = false) :
    Follows last n (Reader.fail last message : Reader α) (g :: K) T pre ts := by
  refine of_error rfl (.of_stop hg ?_)
  rintro _ _ ⟨⟩
  rw [lag, hm]
  rfl

theorem expect_bind {u : Token} {description : String} {f : Unit → Reader β} (htake : g.look (some u) = .take γ)
    (hstop : (tokens ts).head? ≠ some u → g.look (tokens ts).head? = .stop)
    (hm : ∀ found, isLate ("Expected " ++ description ++ ", found " ++ found) = false)
    (h : ∀ t rest, ts = t :: rest → Follows last 0 (f ()) (γ ++ K) T (pre ++ [u]) rest) :
    Follows last 1 (expect last u description >>= f) (g :: K) T pre ts := by
  have hpeek : peek ts = .ok ((tokens ts).head?, ts) := by rw [head?_tokens]; rfl
  by_cases hu : (tokens ts).head? = some u
  · have hrun : expect last u description ts = discard take ts := by
      rw [expect, bind_run, hpeek, hu]
      dsimp only [Except.bind]
      rw [if_pos (beq_self_eq_true _)]
    obtain ⟨t, ts, rfl, rfl⟩ := exists_cons_of_head? hu
    exact of_eq (by rw [bind_run, hrun, ← bind_run]) (discard_bind htake (h t ts rfl))
  · have hrun : expect last u description ts = Reader.fail last
        ("Expected " ++ description ++ ", found " ++ Token.describeFound (tokens ts).head?) ts := by
      rw [expect, bind_run, hpeek]
      dsimp only [Except.bind]
      rw [if_neg (mt beq_iff_eq.mp hu)]
    exact of_eq (by rw [bind_run, hrun]; rfl) (fail (hstop hu) (hm _))

end Follows

/-! ### Pragmas, marks and literals -/

theorem goes_pragmaTokens (hg : ∀ name data, g.look (some (.pragma name data)) = .take [g])
    (qs : List (String × String)) (us : List Token) : Goes (g :: K) (Phrase.pragmaTokens qs ++ us) (g :: K) us := by
  induction qs with
  | nil => exact .refl _ _
  | cons q qs ih => exact .take (hg q.1 q.2) ih

theorem splitPragmas_eq {qs : List (String × String)} (hws : tokens ws = Phrase.pragmaTokens qs)
    (hrest : (tokens rest).head?.bind pragmaTree? = none) :
    splitPragmas (ws ++ rest) = (Phrase.pragmaTrees qs, rest) := by
  induction qs generalizing ws with
  | nil =>
    obtain rfl := List.map_eq_nil_iff.mp hws
    cases rest with
    | nil => rfl
    | cons t rest =>
      have ht : pragmaTree? t.token = none := hrest
      simp only [List.nil_append, splitPragmas, ht]
      rfl
  | cons q qs ih =>
    obtain ⟨⟨_, p⟩, ws, rfl, rfl, hws'⟩ := List.map_eq_cons_iff.mp hws
    simp only [List.cons_append, splitPragmas, pragmaTree?, ih hws']
    rfl

theorem Follows.pragmas_bind {f : List Tree → Reader β}
    (hg : ∀ name data, g.look (some (.pragma name data)) = .take [g])
    (h : ∀ qs ws rest, ts = ws ++ rest → tokens ws = Phrase.pragmaTokens qs →
      (tokens rest).head?.bind pragmaTree? = none →
        Follows last n (f (Phrase.pragmaTrees qs)) (g :: K) T (pre ++ tokens ws) rest) :
    Follows last n (pragmas >>= f) (g :: K) T pre ts := by
  obtain ⟨qs, us, hts, hus⟩ := exists_pragmas (tokens ts)
  -- the tokens are divided with their places, so that an error in the rest is placed where it would be anyway
  obtain ⟨ws, rest, rfl, hws, hrest⟩ := List.map_eq_append_iff.mp hts
  subst hrest
  have hnone : (tokens rest).head?.bind pragmaTree? = none := Option.bind_eq_none_iff.mpr hus
  have hrun : pragmas (ws ++ rest) = .ok (Phrase.pragmaTrees qs, rest) := by
    rw [← splitPragmas_eq hws hnone]
    rfl
  have hgo : Goes (g :: K) (tokens (ws ++ rest)) (g :: K) (tokens rest) := by
    rw [tokens_append, show tokens ws = _ from hws]
    exact goes_pragmaTokens hg qs _
  exact .mono (.step hrun rfl hgo (h qs ws rest rfl hws hnone)) (Nat.le_add_left n _)

theorem mark_run (ts : List Token.Placed) : mark ts = .ok (match (tokens ts).head?.bind Token.mark? with
    | some m => (some m.sign, ts.tail)
    | none => (none, ts)) := by
  obtain _ | ⟨⟨u, p⟩, ts⟩ := ts
  · rfl
  · cases u <;> rfl

theorem Follows.mark_bind {f : Option Char → Reader β}
    (hsome : ∀ t rest m, ts = t :: rest → t.token.mark? = some m →
      ∃ γ, g.look (some t.token) = .take γ ∧ Follows last 0 (f (some m.sign)) (γ ++ K) T (pre ++ [t.token]) rest)
    (hnone : (tokens ts).head?.bind Token.mark? = none → Follows last 1 (f none) (g :: K) T pre ts) :
    Follows last 1 (mark >>= f) (g :: K) T pre ts := by
  have hrun := mark_run ts
  cases h : (tokens ts).head?.bind Token.mark? with
  | none => exact .bind_of_eq (by rw [hrun, h]) (hnone h)
  | some m =>
    obtain ⟨u, hu, hm⟩ := Option.bind_eq_some_iff.mp h
    obtain ⟨t, rest, rfl, rfl⟩ := exists_cons_of_head? hu
    obtain ⟨γ, hg, hf⟩ := hsome t rest m rfl hm
    have hrun : mark (t :: rest) = .ok (some m.sign, rest) := by rw [hrun, h]; rfl
    exact .step hrun (List.singleton_append).symm (.take hg (.refl _ _)) hf

theorem Follows.terminalMark_bind {m : Option Mark} {f : TerminalMark → Reader β}
    (hattr : m = some .attr → g.look (tokens ts).head? = .stop)
    (h : m ≠ some .attr → ∀ k, Follows last n (f k) (g :: K) T pre ts) :
    Follows last n (terminalMark (m.map Mark.sign) >>= f) (g :: K) T pre ts := by
  rcases m with _ | _ | _ | _
  · exact h nofun .keep
  · exact h nofun .keep
  · exact .of_error (e := .invalidMark '@') rfl (.of_stop (hattr rfl) nofun)
  · exact h nofun .hidden

theorem ofHex_ne_syntaxError (digits message : String) (p : Position) :
    Literal.ofHex digits ≠ .error (.syntaxError message p) := by
  unfold Literal.ofHex
  cases Text.Hex.read? digits.toList with
  | none => rintro ⟨⟩
  | some n =>
    dsimp only
    by_cases hn : n.isValidChar
    · rw [dif_pos hn]
      rintro ⟨⟩
    · rw [dif_neg hn]
      rintro ⟨⟩

theorem literal_cases (last : Position) (ts : List Token.Placed) :
    (∃ t rest a, ts = t :: rest ∧ t.token.value? = some a ∧ literal last ts = .ok (a, rest)) ∨
      (tokens ts).head?.bind Token.value? = none ∧
        ∃ e, literal last ts = .error e ∧ IsPlacedLate last ts.tail e := by
  have hfail (o : Option Token) : isLate ("Expected string or #hex, got " ++ Token.describeFound o) = true := by
    simp [List.isPrefixOf]
  rcases ts with _ | ⟨⟨u, p⟩, ts⟩
  · refine .inr ⟨rfl, _, rfl, ?_⟩
    rintro _ _ ⟨⟩
    exact ⟨hfail none, rfl⟩
  · cases u
    case string s => exact .inl ⟨_, ts, .quoted s, rfl, rfl, rfl⟩
    case hex digits =>
      have hrun : literal last (⟨.hex digits, p⟩ :: ts) = (liftM (Literal.ofHex digits) : Reader Literal) ts := rfl
      rw [hrun]
      cases hd : Literal.ofHex digits with
      | ok a => exact .inl ⟨_, ts, a, rfl, by simp [Token.value?, hd, Except.toOption], rfl⟩
      | error e =>
        refine .inr ⟨by simp [Token.value?, hd, Except.toOption], e, rfl, ?_⟩
        rintro message p rfl
        exact absurd hd (ofHex_ne_syntaxError digits message p)
    all_goals
      refine .inr ⟨rfl, _, rfl, ?_⟩
      rintro _ _ ⟨⟩
      exact ⟨hfail _, rfl⟩

theorem Follows.literal_bind {f : Literal → Reader β} (hbad : opensBadRange pre (tokens ts) = false)
    (hstop : (tokens ts).head?.bind Token.value? = none → g.look (tokens ts).head? = .stop)
    (htake : ∀ t rest a, ts = t :: rest → t.token.value? = some a →
      ∃ γ, g.look (some t.token) = .take γ ∧ Follows last 0 (f a) (γ ++ K) T (pre ++ [t.token]) rest) :
    Follows last 1 (literal last >>= f) (g :: K) T pre ts := by
  rcases literal_cases last ts with ⟨t, rest, a, rfl, ha, hlit⟩ | ⟨hnone, e, hlit, hlate⟩
  · obtain ⟨γ, hg, h⟩ := htake t rest a rfl ha
    exact .step hlit (List.singleton_append).symm (.take hg (.refl _ _)) h
  · exact .of_error (by rw [bind_run, hlit]; rfl) (.of_late (hstop hnone) hlate hbad)

/-- A token at fault is taken, and the error is placed at the one after it. -/
theorem Follows.late (message : String) {f : Option Token → Reader β} (hg : g.look (tokens ts).head? = .stop)
    (hf : f (tokens ts).head? = Reader.fail last message) (hm : isLate message = true)
    (hbad : opensBadRange pre (tokens ts) = false) : Follows last n (take >>= f) (g :: K) T pre ts := by
  have hrun : take ts = .ok ((tokens ts).head?, ts.tail) := by rw [head?_tokens]; rfl
  refine .of_error (e := .syntaxError message (place last ts.tail)) ?_ (.of_late hg ?_ hbad)
  · rw [bind_run, hrun]
    exact congrFun hf ts.tail
  · rintro _ _ ⟨⟩
    exact ⟨hm, rfl⟩

end Ixml.Reader
