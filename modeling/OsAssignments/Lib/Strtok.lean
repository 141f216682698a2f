import Mathlib

/-!
# `strtok` on a buffer

The tokens of a string as C finds them: every call looks for the next token from a saved
position and puts a NUL over the delimiter behind it, so the buffer changes while it is
read.

* `strtok`, `strtokAll` — on the bytes of a buffer without its last NUL: one call, and the loop
  that calls until `strtok` returns NULL.
* `tokens`, `firstPart` — what comes of it: the nonempty parts between delimiters, and the
  text in front of the first delimiter that follows a token.
* `strtokAll_eq` — the pointers collected by the loop stand for the tokens, and the buffer
  is left holding the first part.
-/

namespace Strtok

/-- The string at a position: the bytes up to the next NUL. -/
def text (buf : List UInt8) (i : Nat) : List UInt8 := (buf.drop i).takeWhile fun c => decide (c ≠ 0)

/-- One call with the saved position `i`: the token, the buffer and the new position. -/
def strtok (delim : UInt8) (buf : List UInt8) (i : Nat) : Option (Nat × List UInt8 × Nat) :=
  let start := i + ((text buf i).takeWhile fun c => decide (c = delim)).length
  let token := (text buf start).takeWhile fun c => decide (c ≠ delim)
  if token = [] then none
  else
    let stop := start + token.length
    if buf.getD stop 0 = 0 then some (start, buf, stop)
    else some (start, buf.set stop 0, stop + 1)

/-- The calls from the saved position on, until there is no token left. -/
def strtokAll (delim : UInt8) : Nat → List UInt8 → Nat → List Nat × List UInt8
  | 0, buf, _ => ([], buf)
  | fuel + 1, buf, i =>
    match strtok delim buf i with
    | none => ([], buf)
    | some (token, buf, next) =>
      let (rest, buf) := strtokAll delim fuel buf next
      (token :: rest, buf)

/-! ## Tokens -/

/-- The tokens of a text. -/
def tokens (delim : UInt8) (t : List UInt8) : List (List UInt8) :=
  (t.splitOn delim).filter fun token => decide (token ≠ [])

/-- The text up to the end of its first token. -/
def firstPart (delim : UInt8) (t : List UInt8) : List UInt8 :=
  t.takeWhile (fun c => decide (c = delim)) ++
    (t.dropWhile fun c => decide (c = delim)).takeWhile fun c => decide (c ≠ delim)

section

variable {delim : UInt8} {seps tok t : List UInt8}

/-- A text begins with delimiters; what follows is a token, if there is anything. -/
theorem exists_token (delim : UInt8) (t : List UInt8) :
    (∀ c ∈ t, c = delim) ∨ ∃ seps tok tail, t = seps ++ (tok ++ tail) ∧ (∀ c ∈ seps, c = delim) ∧
      tok ≠ [] ∧ delim ∉ tok ∧ (tail = [] ∨ ∃ rest, tail = delim :: rest) := by
  induction t with
  | nil => exact .inl (by simp)
  | cons c t ih =>
    by_cases hc : c = delim
    · rcases ih with hall | ⟨seps, tok, tail, rfl, hseps, hrest⟩
      · exact .inl (by simpa [hc] using hall)
      · exact .inr ⟨c :: seps, tok, tail, rfl, by simpa [hc] using hseps, hrest⟩
    · -- the token goes on up to the next delimiter
      refine .inr ⟨[], (c :: t).takeWhile fun c => decide (c ≠ delim),
        (c :: t).dropWhile fun c => decide (c ≠ delim), by simp, by simp, by simp [hc], ?_, ?_⟩
      · intro hmem
        simpa using List.mem_takeWhile_imp hmem
      · cases hdrop : (c :: t).dropWhile fun c => decide (c ≠ delim) with
        | nil => exact .inl rfl
        | cons x rest =>
          have hx := List.head_dropWhile_not (fun c => decide (c ≠ delim)) (l := c :: t)
            (by rw [hdrop]; exact List.cons_ne_nil _ _)
          simp only [hdrop, List.head_cons, decide_eq_false_iff_not, not_not] at hx
          exact .inr ⟨rest, by rw [hx]⟩

theorem tokens_delims (h : ∀ c ∈ t, c = delim) : tokens delim t = [] := by
  induction t with
  | nil => simp [tokens]
  | cons c t ih =>
    obtain ⟨rfl, ht⟩ := List.forall_mem_cons.mp h
    have hrest := ih ht
    rw [tokens] at hrest ⊢
    rw [List.splitOn_cons_eq_if_modifyHead, if_pos (by simp), List.filter_cons_of_neg (by simp),
      hrest]

theorem tokens_delims_append (h : ∀ c ∈ seps, c = delim) : tokens delim (seps ++ t)
    = tokens delim t := by
  induction seps with
  | nil => rfl
  | cons c seps ih =>
    obtain ⟨rfl, hseps⟩ := List.forall_mem_cons.mp h
    rw [← ih hseps, tokens, List.cons_append, List.splitOn_cons_eq_if_modifyHead,
      if_pos (by simp), List.filter_cons_of_neg (by simp)]
    rfl

theorem tokens_token (hne : tok ≠ []) (hdelim : delim ∉ tok) : tokens delim tok = [tok] := by
  rw [tokens, List.splitOn_eq_singleton hdelim, List.filter_cons_of_pos (by simpa using hne)]
  rfl

theorem tokens_token_append (hne : tok ≠ []) (hdelim : delim ∉ tok) :
    tokens delim (tok ++ delim :: t) = tok :: tokens delim t := by
  have hmem : ∀ c ∈ tok, (c == delim) = false := by
    intro c hc
    simpa using fun heq : c = delim => hdelim (heq ▸ hc)
  rw [tokens, List.splitOn_eq_splitOnP,
    List.splitOnP_append_cons_of_forall_mem hmem delim (by simp) t,
    List.filter_cons_of_pos (by simpa using hne)]
  rfl

theorem firstPart_delims (h : ∀ c ∈ t, c = delim) : firstPart delim t = t := by
  have hall : ∀ c ∈ t, decide (c = delim) = true := by simpa using h
  rw [firstPart, List.takeWhile_eq_self_iff.mpr hall, List.dropWhile_eq_nil_iff.mpr hall]
  simp

theorem firstPart_token (hseps : ∀ c ∈ seps, c = delim) (hne : tok ≠ []) (hdelim : delim ∉ tok)
    {tail : List UInt8} (htail : tail = [] ∨ ∃ rest, tail = delim :: rest) :
    firstPart delim (seps ++ (tok ++ tail)) = seps ++ tok := by
  have hall : ∀ c ∈ seps, decide (c = delim) = true := by simpa using hseps
  have hnot : ∀ c ∈ tok, decide (c ≠ delim) = true := by
    intro c hc
    simpa using fun heq : c = delim => hdelim (heq ▸ hc)
  obtain ⟨x, xs, rfl⟩ := List.exists_cons_of_ne_nil hne
  have hx : x ≠ delim := by simpa using hnot x (by simp)
  have htake : (x :: xs ++ tail).takeWhile (fun c => decide (c = delim)) = [] := by simp [hx]
  have hdrop : (x :: xs ++ tail).dropWhile (fun c => decide (c = delim)) = x :: xs ++ tail := by
    simp [hx]
  rw [firstPart, List.takeWhile_append_of_pos hall, List.dropWhile_append_of_pos hall, htake,
    hdrop, List.takeWhile_append_of_pos hnot, List.append_nil]
  rcases htail with rfl | ⟨rest, rfl⟩ <;> simp

/-! ## Calls -/

/-- A text without a NUL is read to its end. -/
theorem text_append (done : List UInt8) (ht : (0 : UInt8) ∉ t) : text (done ++ t) done.length = t := by
  rw [text, List.drop_left, List.takeWhile_eq_self_iff]
  intro c hc
  simpa using fun heq : c = 0 => ht (heq ▸ hc)

/-- A text without a NUL is the beginning of the string it stands in. -/
theorem text_append_append (done : List UInt8) {a : List UInt8} (ha : (0 : UInt8) ∉ a)
    (b : List UInt8) :
    text (done ++ (a ++ b)) done.length = a ++ text (done ++ a ++ b) (done ++ a).length := by
  have hall : ∀ c ∈ a, decide (c ≠ 0) = true := by
    intro c hc
    simpa using fun heq : c = 0 => ha (heq ▸ hc)
  rw [text, text, List.drop_left, List.drop_left, List.takeWhile_append_of_pos hall]

theorem text_nul (done after : List UInt8) : text (done ++ 0 :: after) done.length = [] := by
  simp [text]

/-- Where only delimiters are left, `strtok` returns NULL. -/
theorem strtok_delims (done : List UInt8) (ht : (0 : UInt8) ∉ t) (h : ∀ c ∈ t, c = delim) :
    strtok delim (done ++ t) done.length = none := by
  have hall : ∀ c ∈ t, decide (c = delim) = true := by simpa using h
  have hend : text (done ++ t) (done.length + t.length) = [] := by simp [text]
  simp only [strtok, text_append done ht, List.takeWhile_eq_self_iff.mpr hall, hend]
  rfl

/-- What a call finds: the delimiters in front of the token, and the token. -/
theorem strtok_token (done : List UInt8) {tail : List UInt8} (ht : (0 : UInt8) ∉ seps ++ (tok ++ tail))
    (hseps : ∀ c ∈ seps, c = delim) (hne : tok ≠ []) (hdelim : delim ∉ tok)
    (htail : tail = [] ∨ ∃ rest, tail = delim :: rest) :
    strtok delim (done ++ (seps ++ (tok ++ tail))) done.length
      = if tail.getD 0 0 = 0 then some (done.length + seps.length,
          done ++ (seps ++ (tok ++ tail)), done.length + seps.length + tok.length)
        else some (done.length + seps.length, done ++ (seps ++ (tok ++ tail.set 0 0)),
          done.length + seps.length + tok.length + 1) := by
  have hall : ∀ c ∈ seps, decide (c = delim) = true := by simpa using hseps
  have hnot : ∀ c ∈ tok, decide (c ≠ delim) = true := by
    intro c hc
    simpa using fun heq : c = delim => hdelim (heq ▸ hc)
  have hhead : (tok ++ tail).takeWhile (fun c => decide (c = delim)) = [] := by
    obtain ⟨x, xs, rfl⟩ := List.exists_cons_of_ne_nil hne
    have hx : x ≠ delim := by simpa using hnot x (by simp)
    simp [hx]
  have hskip : (seps ++ (tok ++ tail)).takeWhile (fun c => decide (c = delim)) = seps := by
    rw [List.takeWhile_append_of_pos hall, hhead, List.append_nil]
  have htoken : (tok ++ tail).takeWhile (fun c => decide (c ≠ delim)) = tok := by
    rw [List.takeWhile_append_of_pos hnot]
    rcases htail with rfl | ⟨rest, rfl⟩ <;> simp
  have hstart : text (done ++ (seps ++ (tok ++ tail))) (done.length + seps.length) = tok ++ tail := by
    rw [← List.append_assoc, ← List.length_append]
    exact text_append _ fun h => ht (List.mem_append_right _ h)
  have hstop : (done ++ (seps ++ (tok ++ tail))).getD (done.length + seps.length + tok.length) 0
      = tail.getD 0 0 := by
    simp [List.getD_eq_getElem?_getD, List.getElem?_append_right, Nat.add_assoc]
  have hset : (done ++ (seps ++ (tok ++ tail))).set (done.length + seps.length + tok.length) 0
      = done ++ (seps ++ (tok ++ tail.set 0 0)) := by
    simp [List.set_append_right, Nat.add_assoc]
  simp only [strtok, text_append done ht, hskip, hstart, htoken, if_neg hne, hstop, hset]

/-- The state of a loop that has read `done` and still has to read the text `t`: the buffer
behind `done` reads as the first part of `t`, and the pointers stand for its tokens. -/
def Reads (delim : UInt8) (done t : List UInt8) (r : List Nat × List UInt8) : Prop :=
  ∃ t', r.2 = done ++ t' ∧ r.1.map (text r.2) = tokens delim t ∧
    text r.2 done.length = firstPart delim t

theorem strtokAll_cons {fuel i token next : Nat} {buf buf' : List UInt8}
    (h : strtok delim buf i = some (token, buf', next)) : strtokAll delim (fuel + 1) buf i
      = (token :: (strtokAll delim fuel buf' next).1, (strtokAll delim fuel buf' next).2) := by
  simp only [strtokAll, h]

/-- One token, and the loop behind it: what is written behind the token is a NUL, or the
buffer ends there. -/
theorem Reads.cons {done mid rest : List UInt8} {r : List Nat × List UInt8}
    (hzero : (0 : UInt8) ∉ seps ++ tok) (hmid : mid = [0] ∨ mid = [] ∧ rest = [])
    (h : Reads delim (done ++ seps ++ tok ++ mid) rest r) {t : List UInt8}
    (htokens : tokens delim t = tok :: tokens delim rest) (hfirst : firstPart delim t = seps ++ tok) :
    Reads delim done t ((done.length + seps.length) :: r.1, r.2) := by
  obtain ⟨t', hbuf, hrest, htext⟩ := h
  have hend : text (done ++ seps ++ tok ++ (mid ++ t')) (done ++ seps ++ tok).length = [] := by
    rcases hmid with rfl | ⟨rfl, rfl⟩
    · exact text_nul _ _
    · rw [hbuf, List.append_nil] at htext
      exact htext
  have htok : text (done ++ seps ++ (tok ++ (mid ++ t'))) (done ++ seps).length = tok := by
    rw [text_append_append _ (fun h => hzero (List.mem_append_right _ h)), hend, List.append_nil]
  have hseps : text (done ++ (seps ++ (tok ++ (mid ++ t')))) done.length = seps ++ tok := by
    rw [text_append_append _ (fun h => hzero (List.mem_append_left _ h)), htok]
  refine ⟨seps ++ (tok ++ (mid ++ t')), ?_, ?_, ?_⟩
  · simp only [hbuf, List.append_assoc]
  · rw [List.map_cons, hrest, htokens, hbuf]
    rw [List.length_append] at htok
    simp only [List.append_assoc] at htok ⊢
    rw [htok]
  · simp only [hbuf, hfirst, List.append_assoc]
    exact hseps

theorem strtokAll_reads {fuel : Nat} (done : List UInt8) (ht : (0 : UInt8) ∉ t)
    (hfuel : t.length < fuel) : Reads delim done t (strtokAll delim fuel (done ++ t) done.length) := by
  induction fuel generalizing done t with
  | zero => omega
  | succ fuel ih =>
    rcases exists_token delim t with hall | ⟨seps, tok, tail, rfl, hseps, hne, hdelim, htail⟩
    · refine ⟨t, ?_, ?_, ?_⟩
      · simp only [strtokAll, strtok_delims done ht hall]
      · simp only [strtokAll, strtok_delims done ht hall, tokens_delims hall, List.map_nil]
      · simp only [strtokAll, strtok_delims done ht hall, text_append done ht,
          firstPart_delims hall]
    · have hcall := strtok_token done ht hseps hne hdelim htail
      have hfirst := firstPart_token hseps hne hdelim htail
      have hpos := List.length_pos_of_ne_nil hne
      simp only [List.length_append] at hfuel
      simp only [List.mem_append, not_or] at ht
      have hzero : (0 : UInt8) ∉ seps ++ tok := by
        simp only [List.mem_append, not_or]
        exact ⟨ht.1, ht.2.1⟩
      rcases htail with rfl | ⟨rest, rfl⟩
      · -- the token ends at the end of the buffer; the next call finds nothing
        have hnext := ih (done ++ seps ++ tok ++ []) List.not_mem_nil
          (by simp only [List.length_nil]; omega)
        have hbuf : done ++ seps ++ tok ++ [] ++ [] = done ++ (seps ++ (tok ++ [])) := by simp
        have hlen : (done ++ seps ++ tok ++ []).length
            = done.length + seps.length + tok.length := by simp [Nat.add_assoc]
        rw [hbuf, hlen] at hnext
        rw [strtokAll_cons (hcall.trans (if_pos rfl))]
        refine hnext.cons hzero (.inr ⟨rfl, rfl⟩) ?_ hfirst
        rw [List.append_nil, tokens_delims_append hseps, tokens_token hne hdelim]
        rfl
      · have hd : delim ≠ 0 := by
          rintro rfl
          exact ht.2.2 (List.mem_cons_self ..)
        have hnext := ih (done ++ seps ++ tok ++ [0])
          (fun h => ht.2.2 (List.mem_cons_of_mem _ h))
          (by simp only [List.length_cons] at hfuel; omega)
        have hbuf : done ++ seps ++ tok ++ [0] ++ rest
            = done ++ (seps ++ (tok ++ (delim :: rest).set 0 0)) := by simp
        have hlen : (done ++ seps ++ tok ++ [0]).length
            = done.length + seps.length + tok.length + 1 := by simp [Nat.add_assoc]
        rw [hbuf, hlen] at hnext
        rw [strtokAll_cons (hcall.trans (if_neg hd))]
        refine hnext.cons hzero (.inl rfl) ?_ hfirst
        rw [tokens_delims_append hseps, tokens_token_append hne hdelim]

/-- The loop collects the tokens of a text without NUL, and leaves its first part behind. -/
theorem strtokAll_eq (delim : UInt8) (ht : (0 : UInt8) ∉ t) :
    (strtokAll delim (t.length + 1) t 0).1.map (text (strtokAll delim (t.length + 1) t 0).2)
        = tokens delim t ∧
      text (strtokAll delim (t.length + 1) t 0).2 0 = firstPart delim t := by
  have hreads : Reads delim [] t (strtokAll delim (t.length + 1) t 0) :=
    strtokAll_reads [] ht (Nat.lt_succ_self _)
  obtain ⟨-, -, htokens, hfirst⟩ := hreads
  exact ⟨htokens, hfirst⟩

/-- **The first part is the whole text** exactly if no delimiter follows the first token. -/
theorem firstPart_eq_self_iff {delim : UInt8} {t : List UInt8} :
    firstPart delim t = t ↔ delim ∉ t.dropWhile fun c => decide (c = delim) := by
  constructor
  · intro h hmem
    have hsplit := List.takeWhile_append_dropWhile (p := fun c => decide (c = delim)) (l := t)
    rw [firstPart] at h
    have hdrop := List.append_cancel_left (h.trans hsplit.symm)
    rw [← hdrop] at hmem
    simpa using List.mem_takeWhile_imp hmem
  · intro hmem
    have hall : (t.dropWhile fun c => decide (c = delim)).takeWhile (fun c => decide (c ≠ delim))
        = t.dropWhile fun c => decide (c = delim) := by
      rw [List.takeWhile_eq_self_iff]
      intro c hc
      simpa using fun heq : c = delim => hmem (heq ▸ hc)
    rw [firstPart, hall, List.takeWhile_append_dropWhile]

end

end Strtok
