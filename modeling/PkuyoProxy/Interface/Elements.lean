import PkuyoProxy.Interface.Messages

/-!
# Where the elements of a stream begin

The reader holds bytes back only inside a header block, a chunk-size line or a chunk's
terminator, and what it holds are the last bytes of its input (`run_ends`).  So an input
that makes it fail contains the block or the line it failed on (`run_failed_iff`).
-/

set_option autoImplicit false

namespace PkuyoProxy.Interface

open PkuyoProxy.Lib PkuyoProxy.Model

variable {maxSize : ℕ} {ip : Bytes} {isRequest : Bool}

namespace Framer

/-- A chunk-size line begins with `rest`: one is expected, or the data of a chunk has just
ended and its terminator does not follow. -/
def AtSizeLine (f : Framer) (rest : Bytes) : Prop :=
  f.pending = [] ∧ (f.phase = .chunkSize ∨ f.phase = .chunkEnd ∧ ¬ crlf <+: rest)

/-- A header block begins. -/
def AtHeaders (f : Framer) : Prop := f.pending = [] ∧ f.phase = .headers

/-- `o` stands behind the bytes it holds back, `g` in front of them. -/
def Grown (g o : Framer) : Prop :=
  g.pending = [] ∧
    match o.phase with
    | .headers => g.phase = .headers
    | .chunkSize => g.phase = .chunkSize ∨
        g.phase = .chunkEnd ∧ 2 ≤ o.pending.length ∧ ¬ crlf <+: o.pending
    | .chunkEnd => g.phase = .chunkEnd
    | _ => True

/-- A framer without pending bytes has grown from itself. -/
theorem grown_self {o : Framer} (h : o.pending = []) : Grown o o := by
  refine ⟨h, ?_⟩
  cases o.phase <;> simp

/-- Behind a header block nothing is pending. -/
theorem openMessage_pending (head : Bytes) :
    (openMessage maxSize ip isRequest head).1.pending = [] := by
  unfold openMessage
  generalize processHttpHeaders { header := head ++ crlf } ip isRequest = parsed
  obtain ⟨tmp, isChunk, len⟩ := parsed
  dsimp only
  repeat' split
  all_goals rfl

/-- Behind a line of a chunk's size nothing is pending. -/
theorem openChunk_pending (tmp : HttpContext) (line : Bytes) :
    (openChunk tmp line).1.pending = [] := by
  unfold openChunk
  repeat' split
  all_goals rfl

/-- Reading one more byte: it is held back with those before it, or nothing is held back. -/
theorem grown_step {g o : Framer} (h : Grown g o) (hwf : Wf o) (x : UInt8) :
    (step maxSize ip isRequest o x).1.pending = [] ∨
      (step maxSize ip isRequest o x).1.pending = o.pending ++ [x] ∧
        Grown g (step maxSize ip isRequest o x).1 := by
  obtain ⟨hg, hphase⟩ := h
  obtain ⟨phase, tmp, pending⟩ := o
  cases phase with
  | headers =>
    simp only [step]
    split
    · exact .inr ⟨rfl, hg, hphase⟩
    · exact .inl (openMessage_pending _)
  | body =>
    simp only [step]
    split
    · exact .inl rfl
    · exact .inl rfl
  | chunkSize =>
    simp only [step]
    split
    · rename_i hnone
      refine .inr ⟨rfl, hg, hphase.imp_right ?_⟩
      rintro ⟨hend, hlen, -⟩
      refine ⟨hend, le_trans hlen (by simp), fun hp => ?_⟩
      exact (find_eq_none_iff _ _).mp hnone hp.isInfix
    · exact .inl (openChunk_pending _ _)
  | chunkData =>
    simp only [step]
    split
    · exact .inl rfl
    · exact .inl rfl
  | chunkEnd =>
    have hlen : pending.length < 2 := hwf
    rcases pending with _ | ⟨y, _ | ⟨z, rest⟩⟩
    · exact .inr ⟨rfl, hg, hphase⟩
    · by_cases hyx : [y, x] = crlf
      · exact .inl (by simp only [step, List.cons_append, List.nil_append, if_pos hyx])
      · refine .inr ⟨by simp [step, hyx], hg, .inr ⟨hphase, ?_⟩⟩
        simp only [step, List.cons_append, List.nil_append, if_neg hyx]
        exact ⟨le_rfl, fun hp => hyx (hp.eq_of_length rfl).symm⟩
    · simp only [List.length_cons] at hlen
      omega
  | failed e => exact .inl hwf

/-- **The bytes held back are the last ones of the input.** -/
theorem run_ends {f : Framer} (hwf : Wf f) (hf : f.pending = []) (xs : Bytes) :
    ∃ pre, pre ++ ((machine maxSize ip isRequest).run f xs).1.pending = xs ∧
      Grown ((machine maxSize ip isRequest).run f pre).1
        ((machine maxSize ip isRequest).run f xs).1 := by
  induction xs using List.reverseRecOn with
  | nil => exact ⟨[], by simp [hf], grown_self hf⟩
  | append_singleton xs x ih =>
    obtain ⟨pre, hpre, hgrown⟩ := ih
    have hrun : ((machine maxSize ip isRequest).run f (xs ++ [x])).1 =
        (step maxSize ip isRequest ((machine maxSize ip isRequest).run f xs).1 x).1 := by
      rw [Mealy.run_append]
      rfl
    rcases @grown_step maxSize ip isRequest _ _ hgrown (wf_run hwf xs) x with h | ⟨h, hnext⟩
    · rw [← hrun] at h
      exact ⟨xs ++ [x], by rw [h, List.append_nil], grown_self h⟩
    · rw [← hrun] at h hnext
      refine ⟨pre, ?_, hnext⟩
      rw [h, ← List.append_assoc, hpre]

/-! ## Elements that cannot be read -/

/-- The element that begins with `rest` cannot be read: a chunk-size line that is not a
number, or a header block that announces a body longer than `reserve` gets. -/
def Unreadable (maxSize : ℕ) (ip : Bytes) (isRequest : Bool) (f : Framer) (rest : Bytes) : Prop :=
  (f.AtSizeLine rest ∧ ∃ n e, find crlf rest = some n ∧ stoul 16 (rest.take n) = .error e) ∨
  (f.AtHeaders ∧ ∃ n len, find (crlf ++ crlf) rest = some n ∧
    announced ip isRequest (rest.take n) = (false, len) ∧ len ≠ npos ∧ maxSize < len)

/-- The line of a chunk's size fails exactly if its number cannot be read. -/
theorem openChunk_failed_iff (tmp : HttpContext) (line : Bytes) :
    (∃ e, (openChunk tmp line).1.phase = .failed e) ↔ ∃ e, stoul 16 line = .error e := by
  unfold openChunk
  cases stoul 16 line with
  | error e => simp
  | ok chunkSize =>
    dsimp only
    split <;> simp [emit]

/-- A header block fails exactly if it announces a length that is above the largest one. -/
theorem openMessage_failed_iff (head : Bytes) :
    (∃ e, (openMessage maxSize ip isRequest head).1.phase = .failed e) ↔
      ∃ len, announced ip isRequest head = (false, len) ∧ len ≠ npos ∧ maxSize < len := by
  unfold openMessage announced
  generalize processHttpHeaders { header := head ++ crlf } ip isRequest = parsed
  obtain ⟨tmp, isChunk, len⟩ := parsed
  dsimp only
  cases isChunk with
  | true => simp
  | false =>
    simp only [Bool.false_eq_true, if_false, Prod.mk.injEq, true_and]
    by_cases hnpos : len = npos
    · simp [hnpos]
    · by_cases hzero : len = 0
      · simp [hzero, npos, emit]
      · by_cases hmax : maxSize < len
        · simp [hnpos, hzero, hmax]
        · simp [hnpos, hzero, hmax]

/-- What cannot be read cannot be read with more bytes behind it either. -/
theorem Unreadable.append {f : Framer} {rest : Bytes} (h : Unreadable maxSize ip isRequest f rest)
    (ys : Bytes) : Unreadable maxSize ip isRequest f (rest ++ ys) := by
  have htake {pat : Bytes} {n : ℕ} (hn : find pat rest = some n) :
      (rest ++ ys).take n = rest.take n := by
    have hlen := find_add_length_le hn
    exact List.take_append_of_le_length (by omega)
  rcases h with ⟨⟨hpending, hline⟩, n, e, hn, he⟩ | ⟨hblock, n, len, hn, hlen⟩
  · refine .inl ⟨⟨hpending, hline.imp_right (And.imp_right ?_)⟩, n, e, find_append ys hn, ?_⟩
    · intro hno hp
      have h2 := find_add_length_le hn
      exact hno (List.prefix_of_prefix_length_le hp (List.prefix_append _ _)
        (le_trans (Nat.le_add_left _ _) h2))
    · rwa [htake hn]
  · exact .inr ⟨hblock, n, len, find_append ys hn, by rwa [htake hn]⟩

/-- The reader fails on it. -/
theorem Unreadable.fails {f : Framer} {rest : Bytes} (h : Unreadable maxSize ip isRequest f rest) :
    ∃ e, ((machine maxSize ip isRequest).run f rest).1.phase = .failed e := by
  obtain ⟨phase, tmp, pending⟩ := f
  rcases h with ⟨⟨hpending, hline⟩, n, e, hn, he⟩ | ⟨⟨hpending, hphase⟩, n, len, hn, hlen⟩
  · obtain rfl : pending = [] := hpending
    have hsize : ((machine maxSize ip isRequest).run ⟨.chunkSize, tmp, []⟩ rest).1.phase =
        .failed e := by
      rw [run_chunkSize_some hn, openChunk, he]
      simp [continueWith, run_failed]
    rcases hline with rfl | ⟨rfl, hno⟩
    · exact ⟨e, hsize⟩
    · have h2 := find_add_length_le hn
      have hlong : ¬ rest.length < 2 := by
        simp only [crlf, List.length_cons, List.length_nil] at h2
        omega
      rw [run_chunkEnd_other hno, if_neg hlong]
      exact ⟨e, hsize⟩
  · obtain rfl : pending = [] := hpending
    obtain rfl : phase = .headers := hphase
    obtain ⟨e, he⟩ := (@openMessage_failed_iff maxSize _ _ (rest.take n)).mpr ⟨len, hlen⟩
    rw [run_headers_some hn]
    generalize openMessage maxSize ip isRequest (rest.take n) = o at he
    obtain ⟨⟨phase, tmp', pending⟩, out⟩ := o
    obtain rfl : phase = .failed e := he
    exact ⟨e, by simp [continueWith, run_failed]⟩

/-- The byte a running reader fails on completes an element that cannot be read. -/
theorem unreadable_of_step {g o : Framer} (h : Grown g o) (hrun : ∀ e, o.phase ≠ .failed e)
    {x : UInt8} (hfail : ∃ e, (step maxSize ip isRequest o x).1.phase = .failed e) :
    Unreadable maxSize ip isRequest g (o.pending ++ [x]) := by
  obtain ⟨hg, hphase⟩ := h
  obtain ⟨phase, tmp, pending⟩ := o
  cases phase with
  | headers =>
    simp only [step] at hfail
    cases hn : find (crlf ++ crlf) (pending ++ [x]) with
    | none => simp [hn] at hfail
    | some n =>
      simp only [hn] at hfail
      obtain ⟨len, hlen⟩ := (openMessage_failed_iff _).mp hfail
      exact .inr ⟨⟨hg, hphase⟩, n, len, hn, hlen⟩
  | body =>
    simp only [step, emit] at hfail
    split at hfail <;> simp at hfail
  | chunkSize =>
    simp only [step] at hfail
    cases hn : find crlf (pending ++ [x]) with
    | none => simp [hn] at hfail
    | some n =>
      simp only [hn] at hfail
      obtain ⟨e, he⟩ := (openChunk_failed_iff _ _).mp hfail
      refine .inl ⟨⟨hg, hphase.imp_right ?_⟩, n, e, hn, he⟩
      rintro ⟨hend, hlen, hno⟩
      exact ⟨hend, fun hp => hno (List.prefix_of_prefix_length_le hp (List.prefix_append _ _) hlen)⟩
  | chunkData =>
    simp only [step] at hfail
    split at hfail <;> simp at hfail
  | chunkEnd =>
    simp only [step] at hfail
    split at hfail <;> simp at hfail
  | failed e => exact absurd rfl (hrun e)

/-- **The reader fails exactly on inputs that contain an element that cannot be read.** -/
theorem run_failed_iff {f : Framer} (hwf : Wf f) (hf : f.pending = [])
    (hrun : ∀ e, f.phase ≠ .failed e) (xs : Bytes) :
    (∃ e, ((machine maxSize ip isRequest).run f xs).1.phase = .failed e) ↔
      ∃ pre rest, pre ++ rest = xs ∧
        Unreadable maxSize ip isRequest ((machine maxSize ip isRequest).run f pre).1 rest := by
  constructor
  · intro h
    induction xs using List.reverseRecOn with
    | nil =>
      obtain ⟨e, he⟩ := h
      exact absurd he (hrun e)
    | append_singleton xs x ih =>
      by_cases hxs : ∃ e, ((machine maxSize ip isRequest).run f xs).1.phase = .failed e
      · obtain ⟨pre, rest, rfl, hbad⟩ := ih hxs
        exact ⟨pre, rest ++ [x], (List.append_assoc _ _ _).symm, hbad.append [x]⟩
      · obtain ⟨pre, hpre, hgrown⟩ := @run_ends maxSize ip isRequest f hwf hf xs
        rw [Mealy.run_append] at h
        refine ⟨pre, _, ?_, unreadable_of_step hgrown (fun e he => hxs ⟨e, he⟩) h⟩
        rw [← List.append_assoc, hpre]
  · rintro ⟨pre, rest, rfl, hbad⟩
    rw [Mealy.run_append]
    exact hbad.fails

end Framer

end PkuyoProxy.Interface
