import PkuyoProxy.Analysis.ContentLengthFraming
import PkuyoProxy.Analysis.FreshStart
import PkuyoProxy.Analysis.ServedFiles

/-!
# Static responses are self-delimiting

A message of announced length is passed on as soon as its last byte is read, in a state that a
new connection has too (`comes_sized`), whatever follows and however the bytes are cut.  The
response that carries a file is such a message: its header is the block of four lines that
announces the length of the content (`exists_fileBlock`).
-/

set_option autoImplicit false

namespace PkuyoProxy.Analysis

open PkuyoProxy.Lib PkuyoProxy.Model PkuyoProxy.Interface
open PkuyoProxy.Model.NormalConnHandler

variable {maxSize : ℕ} {ip : Bytes} {isRequest : Bool}

/-! ## The rounds of a message of announced length -/

/-- The round that reads the header block. -/
theorem parseBody_block (m : SizedMessage maxSize ip isRequest) {r : ParseRun} {rest : Bytes}
    (hs : r.handler.state = .readHeaders) (hip : r.handler.connHandler.ip = ip)
    (hside : r.handler.isRequest = isRequest)
    (hraw : r.handler.rawBuffer = m.head ++ (crlf ++ crlf) ++ rest) :
    ∃ tmp : HttpContext, tmp.header = rewritten ip isRequest m.head ∧ tmp.content = [] ∧
      tmp.data = m.body.length ∧ parseBody maxSize r = some (.next
        (if m.body = [] then
          ⟨{ r.handler with state := .readHeaders, tmpContext := tmp.complete, rawBuffer := rest },
            r.passed ++ [tmp.complete]⟩
        else
          ⟨{ r.handler with state := .readBody, tmpContext := tmp, rawBuffer := rest },
            r.passed⟩)) := by
  have hfind : find (crlf ++ crlf) r.handler.rawBuffer = some m.head.length := by
    rw [hraw]
    exact find_delimited m.delimited rest
  have htake : r.handler.rawBuffer.take m.head.length = m.head := by
    rw [hraw, List.append_assoc]
    exact List.take_left
  have hdrop : r.handler.rawBuffer.drop (m.head.length + 4) = rest := by
    rw [hraw]
    exact List.drop_left' (by simp [crlf])
  have hround := readHeaders_round maxSize r
  have hbody : parseBody maxSize r = some (readHeaders maxSize r) := by
    unfold parseBody
    rw [hs]
  rw [hbody]
  generalize readHeaders maxSize r = f at hround ⊢
  -- the block found is the head, and what it announces rules out every other kind of round
  have hann {e len : ℕ} {tmp : HttpContext} {isChunk : Bool}
      (hf : find (crlf ++ crlf) r.handler.rawBuffer = some e)
      (hp : processHttpHeaders { header := r.handler.rawBuffer.take e ++ crlf }
        r.handler.connHandler.ip r.handler.isRequest = (tmp, isChunk, len)) :
      e = m.head.length ∧ isChunk = false ∧ len = m.body.length ∧
        tmp.header = rewritten ip isRequest m.head ∧ tmp.content = [] := by
    obtain rfl : m.head.length = e := Option.some.inj (hfind.symm.trans hf)
    rw [htake, hip, hside] at hp
    obtain ⟨hwritten, hannounced, hempty⟩ := processed_block hp
    obtain ⟨hchunk, hlen⟩ := Prod.mk.inj (hannounced.symm.trans m.announces)
    exact ⟨rfl, hchunk, hlen, hwritten, hempty⟩
  cases hround with
  | incomplete hf => cases hfind.symm.trans hf
  | chunked hf hp =>
    obtain ⟨-, hchunk, -⟩ := hann hf hp
    cases hchunk
  | skipped hf hp =>
    obtain ⟨-, -, hlen, -⟩ := hann hf hp
    exact absurd hlen.symm m.body_lt.ne
  | @bodiless e tmp hf hp r' hr' =>
    obtain ⟨rfl, -, hlen, hwritten, hempty⟩ := hann hf hp
    have hnil : m.body = [] := List.length_eq_zero_iff.mp hlen.symm
    subst hr'
    refine ⟨extractHead r.handler.isRequest { tmp with data := 0 }, by simpa using hwritten,
      by simpa using hempty, by simpa using hlen, ?_⟩
    rw [if_pos hnil, ← hdrop]
    rfl
  | tooLong hf hp _ _ hmax =>
    obtain ⟨-, -, hlen, -⟩ := hann hf hp
    have hle := m.body_le
    omega
  | @sized e len tmp hf hp hnpos hzero hmax =>
    obtain ⟨rfl, -, rfl, hwritten, hempty⟩ := hann hf hp
    have hne : m.body ≠ [] := by
      rintro hnil
      exact hzero (by rw [hnil]; rfl)
    refine ⟨extractHead r.handler.isRequest { tmp with data := m.body.length },
      by simpa using hwritten, by simpa using hempty, by simp, ?_⟩
    rw [if_neg hne, ← hdrop]
    rfl

/-- The round that reads the rest of a body. -/
theorem parseBody_body {r : ParseRun} {ys rest : Bytes} (hs : r.handler.state = .readBody)
    (hdata : r.handler.tmpContext.data = ys.length)
    (hraw : r.handler.rawBuffer = ys ++ rest) :
    parseBody maxSize r = some (.next
      ⟨{ r.handler with
          state := .readHeaders, rawBuffer := rest
          tmpContext := (Framer.withContent r.handler.tmpContext 0
            (r.handler.tmpContext.content ++ ys)).complete },
        r.passed ++ [(Framer.withContent r.handler.tmpContext 0
          (r.handler.tmpContext.content ++ ys)).complete]⟩) := by
  have htaken : r.handler.takeContent ys.length = { r.handler with
      rawBuffer := rest
      tmpContext := Framer.withContent r.handler.tmpContext 0
        (r.handler.tmpContext.content ++ ys) } := by
    unfold takeContent
    rw [hraw, hdata, List.drop_left, List.take_left, Nat.sub_self]
    rfl
  have hbody : parseBody maxSize r = some (readBody r) := by
    unfold parseBody
    rw [hs]
  have hround := readBody_round r
  rw [hbody]
  generalize readBody r = f at hround ⊢
  cases hround with
  | ended hle hr' =>
    rw [hr', hdata, htaken]
    rfl
  | underWay hlt =>
    rw [hdata, hraw, List.length_append] at hlt
    omega

/-! ## A message and what follows it -/

section Boundary

variable {connHandler : ConnHandler}

/-- The calls on a part of the message leave the parser where the reader is. -/
theorem feeds_sized (m : SizedMessage maxSize connHandler.ip isRequest) {front : List Bytes}
    (hfront : front.flatten <+: m.wire) {f : Framer} {out : List HttpContext}
    (hrun : (Framer.machine maxSize connHandler.ip isRequest).run Framer.fresh front.flatten =
      (f, out)) :
    Feeds maxSize front (.opened isRequest connHandler)
      (.done ⟨restore (ParseRun.opened isRequest connHandler).handler f, out⟩) := by
  have hphase (xs : Bytes) (hxs : xs <+: front.flatten) :=
    phase_sized m.delimited m.announces m.body_lt.ne m.body_le {} (hxs.trans hfront)
  have hend := hphase _ List.prefix_rfl
  rw [show (⟨.headers, {}, []⟩ : Framer) = Framer.fresh from rfl, hrun] at hend
  have hmeets := feed_clean (tracks_opened isRequest connHandler) trivial
    (@cleanFrom_of_phase maxSize connHandler.ip isRequest Framer.fresh front hphase)
  unfold FeedMeets at hmeets
  simp only [ParseRun.opened, hrun] at hmeets
  rcases hmeets with ⟨e, -, hfailed, -⟩ | ⟨-, hdone⟩
  · rw [hfailed] at hend
    rcases hend with hend | hend <;> cases hend
  · have hsettle : settle f = f := by
      apply if_neg
      intro hce
      rw [hce] at hend
      rcases hend with hend | hend <;> cases hend
    rw [hsettle] at hdone
    exact hdone

/-- **A message of announced length is passed on when its last byte is read**, in a state that
differs from that of a new connection in `tmp_context` only. -/
theorem comes_sized (m : SizedMessage maxSize connHandler.ip isRequest) {front : List Bytes}
    {a : Bytes} (hcut : front.flatten ++ a = m.wire) (b : Bytes) (rest : List Bytes) :
    ∃ c tmp, delivered c = m.forwarded ∧
      Comes maxSize (front ++ (a ++ b) :: rest, .opened isRequest connHandler)
        (rest, ⟨{ isRequest, connHandler, tmpContext := tmp, rawBuffer := b }, [c]⟩) := by
  have hfront : front.flatten <+: m.wire := ⟨a, hcut⟩
  have hcomes {f : Framer} {out : List HttpContext}
      (hrun : (Framer.machine maxSize connHandler.ip isRequest).run Framer.fresh front.flatten =
        (f, out)) :
      Comes maxSize (front ++ (a ++ b) :: rest, .opened isRequest connHandler)
        (rest, ⟨{ isRequest, connHandler, state := stateOf f.phase, tmpContext := f.tmp,
                  rawBuffer := f.pending ++ (a ++ b) }, out⟩) :=
    comes_of_feeds (feeds_sized m hfront hrun) (.inl ⟨rfl, rfl⟩) (a ++ b) rest
  by_cases ha : a = []
  · -- all of the message is in the pieces before
    rw [ha, List.append_nil] at hcut
    obtain ⟨c, hc, hrun⟩ := run_sized m.delimited m.announces m.body_lt.ne m.body_le {}
    rw [show m.head ++ (crlf ++ crlf) ++ m.body = front.flatten from hcut.symm] at hrun
    have hwhole := hcomes hrun
    rw [ha] at hwhole ⊢
    exact ⟨c, c, hc, hwhole⟩
  rcases Nat.lt_or_ge front.flatten.length (m.head.length + (crlf ++ crlf).length) with hlt | hge
  · -- the blank line is still to come
    have hnone : find (crlf ++ crlf) front.flatten = none := by
      rw [List.prefix_iff_eq_take.mp hfront]
      exact find_take_of_lt (find_delimited m.delimited m.body) hlt
    have hpiece := hcomes (Framer.run_headers_none hnone)
    have hraw : front.flatten ++ (a ++ b) = m.head ++ (crlf ++ crlf) ++ (m.body ++ b) := by
      rw [← List.append_assoc, hcut, SizedMessage.wire]
      simp
    obtain ⟨tmp, hheader, hcontent, hdata, hround⟩ := @parseBody_block maxSize _ _ m
      ⟨{ isRequest, connHandler, rawBuffer := front.flatten ++ (a ++ b) }, []⟩ _ rfl rfl rfl hraw
    have hblock := hpiece.tail (.round (by simp [rawNonempty, ha]) hround)
    by_cases hnil : m.body = []
    · rw [if_pos hnil, hnil] at hblock
      refine ⟨tmp.complete, tmp.complete, ?_, hblock⟩
      simp [delivered, SizedMessage.forwarded, hheader, hcontent, hnil]
    · rw [if_neg hnil] at hblock
      have hbody := @parseBody_body maxSize
        ⟨{ isRequest, connHandler, state := .readBody, tmpContext := tmp,
           rawBuffer := m.body ++ b }, []⟩ m.body b rfl hdata rfl
      refine ⟨_, _, ?_, hblock.tail (.round ?_ hbody)⟩
      · simp [delivered, SizedMessage.forwarded, Framer.withContent, hheader, hcontent]
      · simp [rawNonempty, hnil]
  · -- the pieces before end inside the body
    obtain ⟨ys, hys⟩ : m.head ++ (crlf ++ crlf) <+: front.flatten :=
      List.prefix_of_prefix_length_le (List.prefix_append _ m.body) hfront (by simpa using hge)
    have hsplit : ys ++ a = m.body := by
      rw [← hys, SizedMessage.wire, List.append_assoc, List.append_cancel_left_eq] at hcut
      exact hcut
    have hlen : m.body.length = ys.length + a.length := by rw [← hsplit, List.length_append]
    have hpos := List.length_pos_of_ne_nil ha
    obtain ⟨tmp, hheader, hcontent, hdata, hopen⟩ :=
      openMessage_sized m.announces m.body_lt.ne m.body_le
    have hrun : (Framer.machine maxSize connHandler.ip isRequest).run Framer.fresh front.flatten =
        (⟨.body, Framer.withContent tmp (tmp.data - ys.length) (tmp.content ++ ys), []⟩, []) := by
      rw [← hys, Framer.fresh, run_block m.delimited, hopen, if_neg (by omega)]
      have hbody := @Framer.run_body_lt maxSize connHandler.ip isRequest tmp ys (by omega)
      simp [Framer.continueWith, hbody]
    have hmissing : tmp.data - ys.length = a.length := by omega
    have hbody := @parseBody_body maxSize
      ⟨{ isRequest, connHandler, state := .readBody, rawBuffer := a ++ b,
         tmpContext := Framer.withContent tmp (tmp.data - ys.length) (tmp.content ++ ys) },
        []⟩ a b rfl hmissing rfl
    refine ⟨_, _, ?_, (hcomes hrun).tail (.round ?_ hbody)⟩
    · simp [delivered, SizedMessage.forwarded, Framer.withContent, hheader, hcontent, hsplit]
    · simp [rawNonempty, ha]

end Boundary

/-! ## The response that carries a file -/

/-- Its header block announces its length and goes through the parser unchanged. -/
theorem exists_fileBlock {content : Bytes} (hlen : content.length < npos)
    (hmax : content.length ≤ maxSize) (fullPath ip : Bytes) :
    ∃ m : SizedMessage maxSize ip false, m.body = content ∧
      m.head ++ (crlf ++ crlf) = localHeader 200 (getMimeType fullPath) content ∧
      rewritten ip false m.head = localHeader 200 (getMimeType fullPath) content := by
  obtain ⟨head, hdelim, hheader, hann, hwritten⟩ :=
    localHeader_block 200 (getMimeType_bytes fullPath) (Nat.lt_trans hlen (by decide))
  exact ⟨⟨head, content, hdelim, hann ip false, hlen, hmax⟩, rfl, hheader, hwritten ip⟩

/-- The status code that is read off the header of a file is 200. -/
theorem statusCode_of_localHeader {c : HttpContext} {mime content : Bytes}
    (hextracted : Extracted false c) (hheader : c.header = localHeader 200 mime content) :
    c.response.statusCode = 200 := by
  have hresponse : c.response = (getResponseHead { header := c.header }).2.response := hextracted.2
  rw [hresponse, @getResponseHead_local { header := c.header } 200 (by decide) _ _ hheader]
  rfl

/-- **Static responses are self-delimiting**: whatever the file and its path, whatever bytes
follow and however all of it is cut, the parser of the receiver passes on the response as one
message, and behind it what it would pass on had it been given the bytes behind alone. -/
theorem static_response_delimited (maxSize : ℕ) (connHandler : ConnHandler)
    (fullPath content : Bytes) (hlen : content.length < npos) (hmax : content.length ≤ maxSize)
    (front : List Bytes) (a b : Bytes) (rest : List Bytes)
    (hcut : front.flatten ++ a =
      (fileResponse fullPath content).header ++ (fileResponse fullPath content).content) :
    ∃ c : HttpContext, c.response.statusCode = 200 ∧ c.content = content ∧
      c.header = (fileResponse fullPath content).header ∧ c.isCompleted = true ∧
      Passes maxSize (front ++ (a ++ b) :: rest) (.opened false connHandler) [c] ∧
      ∀ ms, Passes maxSize (front ++ (a ++ b) :: rest) (.opened false connHandler) ms ↔
        ms = [] ∨ ∃ ms', ms = c :: ms' ∧
          Passes maxSize (b :: rest) (.opened false connHandler) ms' := by
  obtain ⟨m, hbody, hhead, hwritten⟩ := @exists_fileBlock maxSize _ hlen hmax fullPath
    connHandler.ip
  have hwire : front.flatten ++ a = m.wire := by
    rw [hcut, fileResponse_eq, SizedMessage.wire, hhead, hbody]
  obtain ⟨c, tmp, hc, hcomes⟩ := comes_sized m hwire b rest
  have hparts : c.header = localHeader 200 (getMimeType fullPath) content ∧ c.content = content ∧
      c.isCompleted = true := by
    simpa [delivered, SizedMessage.forwarded, hwritten, hbody] using hc
  obtain ⟨hheader, hcontent, hcompleted⟩ := hparts
  have hextracted : Extracted false c :=
    reaches_extracted (comes_reaches .opened hcomes) c (.inl (List.mem_singleton_self c))
  refine ⟨c, statusCode_of_localHeader hextracted hheader, hcontent, ?_, hcompleted,
    ⟨_, hcomes, rfl⟩, fun ms => passes_behind hcomes⟩
  rw [hheader, fileResponse_eq]

/-- A file that looks like a response, cut inside that, with another response behind it. -/
theorem static_response_delimited_nested :
    ∃ c : HttpContext, c.response.statusCode = 200 ∧ c.content = ascii "HTTP/1.1 500 X\r\n\r\n" ∧
      c.header = (fileResponse (ascii "/w/a.html") (ascii "HTTP/1.1 500 X\r\n\r\n")).header ∧
      c.isCompleted = true ∧
      Passes (2 ^ 62) [ascii "HTTP/1.1 200 OK\r\nContent-Type: text/html\r\nContent-Length: 18\r\n",
        ascii "Connection: close\r\n\r\nHTTP/1.1 5",
        ascii "00 X\r\n\r\n" ++ ascii "HTTP/1.1 404 N\r\n\r\n"] (.opened false {}) [c] ∧
      ∀ ms, Passes (2 ^ 62)
          [ascii "HTTP/1.1 200 OK\r\nContent-Type: text/html\r\nContent-Length: 18\r\n",
            ascii "Connection: close\r\n\r\nHTTP/1.1 5",
            ascii "00 X\r\n\r\n" ++ ascii "HTTP/1.1 404 N\r\n\r\n"] (.opened false {}) ms ↔
        ms = [] ∨ ∃ ms', ms = c :: ms' ∧
          Passes (2 ^ 62) [ascii "HTTP/1.1 404 N\r\n\r\n"] (.opened false {}) ms' :=
  static_response_delimited (2 ^ 62) {} (ascii "/w/a.html") (ascii "HTTP/1.1 500 X\r\n\r\n")
    (by decide) (by decide)
    [ascii "HTTP/1.1 200 OK\r\nContent-Type: text/html\r\nContent-Length: 18\r\n",
      ascii "Connection: close\r\n\r\nHTTP/1.1 5"]
    (ascii "00 X\r\n\r\n") (ascii "HTTP/1.1 404 N\r\n\r\n") [] (by decide)

end PkuyoProxy.Analysis
