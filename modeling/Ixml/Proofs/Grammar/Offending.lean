import Ixml.Proofs.Grammar.Reading
import Ixml.Proofs.Grammar.Refusal

/-!
# The token at fault

Tokens are viable if they begin a grammar. Where a text is no grammar, the token at fault is the first that is not
viable together with those before it. An error of syntax is placed at that token, except that some errors are found only
when it has been taken, and are placed one or two tokens after it (`place_of_syntaxError`).
-/

namespace Ixml.Grammar

open Text (Position)
open Reader (tokens place lag)
open Goal (Goes)

variable {ts ws vs : List Token.Placed} {us us' : List Token} {F : List Tree} {e : Error} {t : Token.Placed} {k : Nat}
  {message : String} {p : Position}

/-- Tokens that begin a grammar. -/
def IsViable (us : List Token) : Prop :=
  ∃ ts F, us <+: tokens ts ∧ readTokens ts = .ok F

theorem IsViable.of_isPrefix (h : IsViable us) (hus : us' <+: us) : IsViable us' :=
  let ⟨ts, F, hts, hF⟩ := h
  ⟨ts, F, hus.trans hts, hF⟩

theorem goes_of_readTokens (h : readTokens ts = .ok F) : Goes [.opening] (tokens ts) [] [] := by
  have hfollows : Reader.Follows (lastPosition ts) 0 _ [.opening] [.rules true] [] ts := Reader.follows_grammar
  unfold Reader.Follows at hfollows
  unfold readTokens at h
  cases hm : Reader.grammar (lastPosition ts) ts with
  | error e =>
    rw [StateT.run, hm] at h
    cases h
  | ok r =>
    rw [hm] at hfollows
    obtain ⟨ws, -, -, hgo⟩ := hfollows
    have hrest : tokens r.2 = [] := (Reader.takes_grammar ts r.1 r.2 rfl hm).1
    rw [hrest] at hgo
    exact hgo.trans (.drop rfl)

theorem halts_of_readTokens (h : readTokens ts = .error e) :
    Reader.Halts (lastPosition ts) [.opening] [] ts e := by
  have hfollows : Reader.Follows (lastPosition ts) 0 _ [.opening] [.rules true] [] ts := Reader.follows_grammar
  unfold Reader.Follows at hfollows
  unfold readTokens at h
  rw [StateT.run] at h
  cases hm : Reader.grammar (lastPosition ts) ts with
  | error e' =>
    rw [hm] at h hfollows
    cases h
    exact hfollows
  | ok r =>
    rw [hm] at h
    cases h

/-- A list of tokens is a grammar if it leads from the front of a text to its end. -/
theorem exists_readTokens_iff : (∃ F, readTokens ts = .ok F) ↔ Goes [.opening] (tokens ts) [] [] := by
  constructor
  · rintro ⟨F, hF⟩
    exact goes_of_readTokens hF
  · intro hgo
    cases h : readTokens ts with
    | ok F => exact ⟨F, rfl⟩
    | error e =>
      obtain ⟨ws, vs, g, K, -, hgo', hstop, -⟩ := halts_of_readTokens h
      exact absurd hstop (hgo.not_stop hgo')

theorem isViable_iff : IsViable us ↔ ∃ xs, Goes [.opening] (us ++ xs) [] [] := by
  constructor
  · rintro ⟨ts, F, ⟨xs, hxs⟩, hF⟩
    exact ⟨xs, hxs ▸ goes_of_readTokens hF⟩
  · rintro ⟨xs, hgo⟩
    have htokens : tokens ((us ++ xs).map fun u => ⟨u, .start⟩) = us ++ xs := by
      rw [tokens, List.map_map]
      exact List.map_id _
    obtain ⟨F, hF⟩ := exists_readTokens_iff.mpr (htokens ▸ hgo)
    exact ⟨_, F, ⟨xs, htokens.symm⟩, hF⟩

theorem isViable_of_goes {S : List Goal} {vs : List Token} (h : Goes [.opening] (us ++ vs) S vs) : IsViable us :=
  isViable_iff.mpr (h.exists_nil ⟨rfl, trivial⟩)

theorem not_isViable_of_stop {g : Goal} {K : List Goal} {u : Token} {vs : List Token}
    (h : Goes [.opening] (us ++ u :: vs) (g :: K) (u :: vs)) (hstop : g.look (some u) = .stop) :
    ¬IsViable (us ++ [u]) := by
  rw [isViable_iff]
  rintro ⟨xs, hgo⟩
  -- what has been taken does not depend on what is after the refused token, and neither does the goal that refuses it
  obtain ⟨ws, K', hws, htake, hpass⟩ := h.exists_append
  obtain rfl := List.append_cancel_right hws
  rw [List.append_assoc] at hgo
  exact hgo.not_stop ((htake _).trans (hpass (u :: xs) rfl)) hstop

/-- An error is found where the tokens cease to be viable, and an error of syntax is placed accordingly. -/
theorem exists_fault (h : readTokens ts = .error e) : ∃ ws vs, ts = ws ++ vs ∧ IsViable (tokens ws) ∧
    (∀ v ∈ vs.head?, ¬IsViable (tokens ws ++ [v.token])) ∧ ∀ message p, e = .syntaxError message p →
      p = place (lastPosition ts) (vs.drop (lag message (tokens ws) (tokens vs))) := by
  obtain ⟨ws, vs, g, K, rfl, hgo, hstop, hp⟩ := halts_of_readTokens h
  rw [Reader.tokens_append] at hgo
  refine ⟨ws, vs, rfl, isViable_of_goes hgo, fun v hv => ?_, hp⟩
  obtain ⟨vs, rfl⟩ := List.head?_eq_some_iff.mp hv
  exact not_isViable_of_stop hgo hstop

theorem readTokens_of_read {text : String} (hscan : Token.scan text = .ok ts) (hread : read text = .error e) :
    readTokens ts = .error e := by
  have hbind : read text = (readTokens ts).bind fun F => .ok (ofForest F) := by rw [read, hscan]; rfl
  rw [hbind] at hread
  cases h : readTokens ts with
  | error e' =>
    rw [h] at hread
    cases hread
    rfl
  | ok F =>
    rw [h] at hread
    cases hread

/-- There is only one place where tokens cease to be viable. -/
theorem eq_length_of_isViable (hk : k < (us ++ us').length) (hus : IsViable us)
    (hnext : ∀ u ∈ us'.head?, ¬IsViable (us ++ [u])) (hviable : IsViable ((us ++ us').take k))
    (hfault : ¬IsViable ((us ++ us').take (k + 1))) : k = us.length := by
  rcases Nat.lt_trichotomy k us.length with hlt | heq | hlt
  · refine absurd (hus.of_isPrefix ?_) hfault
    rw [List.take_append_of_le_length hlt]
    exact List.take_prefix _ _
  · exact heq
  · cases us' with
    | nil =>
      rw [List.append_nil] at hk
      omega
    | cons u us' =>
      have hbegin : us ++ [u] <+: us ++ u :: us' := (List.prefix_append_right_inj us).mpr ⟨us', rfl⟩
      have htake : us ++ [u] <+: (us ++ u :: us').take k :=
        List.prefix_take_iff.mpr ⟨hbegin, by rw [List.length_append]; exact hlt⟩
      exact absurd (hviable.of_isPrefix htake) (hnext u rfl)

/-- Let the token number `k` of a text, from zero, be the first that is not viable with those before it. An error of
syntax is placed at that token, unless its message is a late one: then it is placed at the next token, or at the one
after it if the token at fault is the minus sign of a range that its string cannot begin. Where the tokens end before
that, it is placed at the last token. -/
theorem place_of_syntaxError {text : String} (hscan : Token.scan text = .ok ts)
    (hread : read text = .error (.syntaxError message p)) (hk : k < ts.length)
    (hviable : IsViable ((tokens ts).take k)) (hfault : ¬IsViable ((tokens ts).take (k + 1))) :
    p = place (lastPosition ts) (ts.drop (k + lag message ((tokens ts).take k) ((tokens ts).drop k))) := by
  obtain ⟨ws, vs, hts, hws, hnext, hp⟩ := exists_fault (readTokens_of_read hscan hread)
  have htokens : tokens ts = tokens ws ++ tokens vs := by rw [hts, Reader.tokens_append]
  have hlength : (tokens ws).length = ws.length := List.length_map _
  have hk' : k = ws.length := by
    rw [← hlength]
    refine eq_length_of_isViable ?_ hws (fun u hu => ?_) (htokens ▸ hviable) (htokens ▸ hfault)
    · rw [← htokens, tokens, List.length_map]
      exact hk
    · obtain ⟨v, rest, rfl, rfl⟩ := Reader.exists_cons_of_head? hu
      exact hnext v rfl
  rw [htokens, hk', List.take_left' hlength, List.drop_left' hlength, ← List.drop_drop]
  have hdrop : ts.drop ws.length = vs := by rw [hts, List.drop_left]
  rw [hdrop]
  exact hp message p rfl

/-- A string that cannot begin a range is seen to be one when the range has ended. -/
theorem place_of_syntaxError_range : ∃ ts message,
    Token.scan "a: [\"bc\"-'d']." = .ok ts ∧ read "a: [\"bc\"-'d']." = .error (.syntaxError message ⟨1, 13⟩) ∧
      4 < ts.length ∧ IsViable ((tokens ts).take 4) ∧ ¬IsViable ((tokens ts).take (4 + 1)) ∧
        lag message ((tokens ts).take 4) ((tokens ts).drop 4) = 2 ∧
        ⟨1, 13⟩ = place (lastPosition ts) (ts.drop (4 + lag message ((tokens ts).take 4) ((tokens ts).drop 4))) := by
  have hscan : Token.scan "a: [\"bc\"-'d']." = .ok [⟨.ident "a", ⟨1, 1⟩⟩, ⟨.colon, ⟨1, 2⟩⟩, ⟨.leftBracket, ⟨1, 4⟩⟩,
      ⟨.string "bc", ⟨1, 5⟩⟩, ⟨.minus, ⟨1, 9⟩⟩, ⟨.string "d", ⟨1, 10⟩⟩, ⟨.rightBracket, ⟨1, 13⟩⟩,
      ⟨.period, ⟨1, 14⟩⟩] := by decide +kernel
  have hread : read "a: [\"bc\"-'d']." =
      .error (.syntaxError "Range bound must be a single character, got \"bc\"" ⟨1, 13⟩) := by
    rw [read, hscan]
    rfl
  have hgo : Goes [.opening] ([.ident "a", .colon, .leftBracket, .string "bc"] ++ [.minus])
      [.afterValue (.quoted "bc"), .memberEnd, .members, .sign, .factors, .furtherAlts, .period, .rules true]
      [.minus] :=
    .take rfl (.take rfl (.pass rfl (.pass rfl (.pass rfl (.take rfl (.take rfl (.refl _ _)))))))
  have hviable := isViable_of_goes hgo
  have hfault := not_isViable_of_stop hgo rfl
  refine ⟨_, _, hscan, hread, by decide, hviable, hfault, by decide, ?_⟩
  exact place_of_syntaxError hscan hread (by decide) hviable hfault

/-- A sign in the place of a rule is at fault, and the error is placed at the name after it. -/
theorem place_of_syntaxError_ne_fault : ∃ ts message p k,
    Token.scan "a: b. : c." = .ok ts ∧ read "a: b. : c." = .error (.syntaxError message p) ∧ k < ts.length ∧
      IsViable ((tokens ts).take k) ∧ ¬IsViable ((tokens ts).take (k + 1)) ∧
        place (lastPosition ts) (ts.drop k) = ⟨1, 7⟩ ∧ p = ⟨1, 9⟩ := by
  have hscan : Token.scan "a: b. : c." = .ok [⟨.ident "a", ⟨1, 1⟩⟩, ⟨.colon, ⟨1, 2⟩⟩, ⟨.ident "b", ⟨1, 4⟩⟩,
      ⟨.period, ⟨1, 5⟩⟩, ⟨.colon, ⟨1, 7⟩⟩, ⟨.ident "c", ⟨1, 9⟩⟩, ⟨.period, ⟨1, 10⟩⟩] := by decide +kernel
  have hread : read "a: b. : c." = .error (.syntaxError "Expected rule name, got Some(Colon)" ⟨1, 9⟩) := by
    rw [read, hscan]
    rfl
  have hgo : Goes [.opening] ([.ident "a", .colon, .ident "b", .period] ++ [.colon]) [.rules true] [.colon] :=
    .take rfl (.take rfl (.pass rfl (.pass rfl (.pass rfl (.take rfl (.pass rfl (.pass rfl (.pass rfl
      (.pass rfl (.take rfl (.refl _ _)))))))))))
  exact ⟨_, _, _, 4, hscan, hread, by decide, isViable_of_goes hgo, not_isViable_of_stop hgo rfl, rfl, rfl⟩

end Ixml.Grammar
