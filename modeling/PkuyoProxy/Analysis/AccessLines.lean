import PkuyoProxy.Analysis.StartLines
import PkuyoProxy.Model.AccessLog

/-!
# Access log lines and their buffer

Nothing bounds the line that `log_access` prints: method and target are shown as they came.  It
fits the buffer exactly if what is shown of them, the address and the port have 493 bytes at most
(`accessLine_fits_iff`).
-/

set_option autoImplicit false

namespace PkuyoProxy.Analysis

open PkuyoProxy.Lib PkuyoProxy.Model PkuyoProxy.Interface

variable {maxSize : ℕ} {connHandler : ConnHandler}

/-- How many bytes of a text are shown if `len` are asked for.  A null byte ends the text; the
number is taken for an `int`, and a negative one bounds nothing. -/
def shownLength (len : ℕ) (text : Bytes) : ℕ :=
  let shown := (text.takeWhile (· ≠ 0)).length
  if len % 2 ^ 32 < 2 ^ 31 then min (len % 2 ^ 32) shown else shown

/-- How many bytes of a block are shown: of its text up to the first space, and of the text from
there to the next one. -/
def startLineShown (block : Bytes) : ℕ :=
  let method := block.takeWhile (· ≠ 32)
  let behind := block.drop (method.length + 1)
  shownLength method.length block + shownLength (behind.takeWhile (· ≠ 32)).length behind

/-- What is shown of a request's block leaves room for the address and the port. -/
def BlockFits (connHandler : ConnHandler) (block : Bytes) : Prop :=
  startLineShown block + connHandler.ip.length + (decimal connHandler.port).length ≤ 493

/-! ## Lengths -/

/-- A length is converted to `int` by taking it modulo the range of the type. -/
theorem toInt_natCast (n : ℕ) :
    toInt n = if n % 2 ^ 32 < 2 ^ 31 then (n : ℤ) % 2 ^ 32 else (n : ℤ) % 2 ^ 32 - 2 ^ 32 := by
  have hbmod : toInt n = if (n : ℤ) % 2 ^ 32 < (2 ^ 32 + 1) / 2 then (n : ℤ) % 2 ^ 32
      else (n : ℤ) % 2 ^ 32 - 2 ^ 32 := Int.bmod_def n (2 ^ 32)
  have hhalf : ((2 ^ 32 : ℤ) + 1) / 2 = 2 ^ 31 := rfl
  have hcast : (n : ℤ) % 2 ^ 32 < 2 ^ 31 ↔ n % 2 ^ 32 < 2 ^ 31 := by omega
  rw [hbmod, hhalf]
  simp only [hcast]

/-- A text that is printed with a precision has the length that is shown of it. -/
theorem length_formatPrecision (n : ℕ) (text : Bytes) :
    (formatPrecision (toInt n) text).length = shownLength n text := by
  unfold formatPrecision shownLength
  rw [toInt_natCast]
  by_cases hn : n % 2 ^ 32 < 2 ^ 31
  · have hpos : ¬ (n : ℤ) % 2 ^ 32 < 0 := by omega
    have hnat : ((n : ℤ) % 2 ^ 32).toNat = n % 2 ^ 32 := by omega
    rw [if_pos hn, if_neg hpos, if_pos hn, List.length_take, hnat]
  · have hneg : (n : ℤ) % 2 ^ 32 - 2 ^ 32 < 0 := by omega
    rw [if_neg hn, if_pos hneg, if_neg hn]

/-- Of a start line with two spaces, the parts that are shown begin at the method and at the
target. -/
theorem startLineShown_cut {method target rest : Bytes} (hm : 32 ∉ method) (ht : 32 ∉ target) :
    startLineShown (method ++ 32 :: (target ++ 32 :: rest)) =
      shownLength method.length (method ++ 32 :: (target ++ 32 :: rest)) +
        shownLength target.length (target ++ 32 :: rest) := by
  simp only [startLineShown, takeWhile_cut hm, drop_cut, takeWhile_cut ht]

/-- Eighteen bytes of the line are always the same. -/
theorem length_accessLine {h : NormalConnHandler} (hside : h.isRequest = true)
    (hspace : 2 ≤ h.tmpContext.header.count 32) :
    ∃ text, h.accessLine = some text ∧ text.length =
      startLineShown h.tmpContext.header + h.connHandler.ip.length +
        (decimal h.connHandler.port).length + 18 := by
  obtain ⟨method, target, rest, hcut, hm, ht⟩ := exists_cuts hspace
  have hhead := getRequestHead_cut hm ht hcut
  refine ⟨_, by rw [NormalConnHandler.accessLine, if_pos hside, hhead], ?_⟩
  dsimp only
  rw [hcut, startLineShown_cut hm ht, drop_cut]
  simp only [List.length_append, length_formatPrecision]
  have hreq : (ascii "reqeust: ").length = 9 := rfl
  have hblank : (ascii " ").length = 1 := rfl
  have hfrom : (ascii ", From ").length = 7 := rfl
  have hcolon : (ascii ":").length = 1 := rfl
  omega

/-! ## Every run -/

/-- The context `log_access` reports on holds the rewritten block. -/
theorem exists_reporting {r : ParseRun} {head rest : Bytes}
    (hbuffer : r.handler.rawBuffer = head ++ (crlf ++ crlf) ++ rest) (hdelim : Delimited head)
    (haccepted : announced r.handler.connHandler.ip r.handler.isRequest head ≠ (false, npos)) :
    ∃ h, reporting r = some h ∧ h.isRequest = r.handler.isRequest ∧
      h.connHandler = r.handler.connHandler ∧
      h.tmpContext.header = rewritten r.handler.connHandler.ip r.handler.isRequest head := by
  have hfind := find_delimited hdelim rest
  have htake : (head ++ (crlf ++ crlf) ++ rest).take (head.length + 2) = head ++ crlf := by
    rw [List.append_assoc, List.append_assoc, ← List.append_assoc]
    exact List.take_left' (by simp [crlf])
  unfold reporting
  rw [hbuffer, hfind]
  dsimp only [HttpContext.reset_eq]
  rw [htake]
  unfold announced at haccepted
  split
  · exact ⟨_, rfl, rfl, rfl, rfl⟩
  · rename_i hsized
    rw [Bool.not_eq_true] at hsized
    rw [if_neg fun hlen => haccepted (Prod.ext hsized hlen)]
    exact ⟨_, rfl, rfl, rfl, rfl⟩

/-- **The line of a request fits the buffer if and only if what is shown of its start line, the
address and the port have no more than 493 bytes.** -/
theorem accessLine_fits_iff {r : ParseRun} (hr : Reaches maxSize true connHandler r)
    (hs : r.handler.state = .readHeaders) {head rest : Bytes} (hdelim : Delimited head)
    (hbuffer : r.handler.rawBuffer = head ++ (crlf ++ crlf) ++ rest)
    (haccepted : announced connHandler.ip true head ≠ (false, npos)) :
    LineFits r ↔ startLineShown (rewritten connHandler.ip true head) + connHandler.ip.length +
      (decimal connHandler.port).length ≤ 493 := by
  have hinv := reaches_inv hr
  obtain ⟨h, hreport, hside, hconn, hheader⟩ := exists_reporting hbuffer hdelim
    (by rwa [hinv.side, hinv.conn])
  rw [hinv.side] at hside hheader
  rw [hinv.conn] at hconn hheader
  have hspace : 2 ≤ h.tmpContext.header.count 32 := by
    obtain ⟨line, text, -, hblock, htext⟩ := exists_rewritten connHandler.ip true head
    have hcount := htext rfl
    rw [hheader, hblock, List.count_append, List.count_cons_of_ne (by decide),
      List.count_cons_of_ne (by decide)]
    omega
  obtain ⟨text, htext, hlen⟩ := length_accessLine hside hspace
  rw [hheader, hconn] at hlen
  have hline : r.accessLine = some text := by
    rw [ParseRun.accessLine, hs, hreport]
    exact htext
  unfold LineFits
  rw [hline]
  simp only [Option.some.injEq, forall_eq', formatBufferSize]
  omega

/-- The equivalence for a short request. -/
theorem accessLine_fits_iff_short :
    LineFits ((ParseRun.opened true clientConn).append (ascii "P / H\r\n\r\n")) ↔
      startLineShown (rewritten clientConn.ip true (ascii "P / H")) + clientConn.ip.length +
        (decimal clientConn.port).length ≤ 493 :=
  @accessLine_fits_iff (2 ^ 62) clientConn _ (.append .opened _) rfl (ascii "P / H") [] (by decide)
    (by decide) (by decide)

/-- A request for a target of 601 bytes has arrived. -/
def longRun : ParseRun :=
  (ParseRun.opened true clientConn).append
    (ascii "GET /" ++ List.replicate 600 97 ++ ascii " HTTP/1.1\r\n\r\n")

/-- A request with a long target does not fit the buffer. -/
theorem not_lineFits_long :
    ¬ ∀ (maxSize : ℕ) (connHandler : ConnHandler) (r : ParseRun),
      Reaches maxSize true connHandler r → LineFits r := by
  intro hall
  have hlen : longRun.accessLine.map List.length = some 631 := by decide +kernel
  obtain ⟨text, htext, hlong⟩ := Option.map_eq_some_iff.mp hlen
  have hfits := hall (2 ^ 62) clientConn longRun (.append .opened _) text htext
  rw [hlong] at hfits
  exact absurd hfits (by decide)

end PkuyoProxy.Analysis
