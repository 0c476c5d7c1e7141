import PkuyoProxy.Analysis.ClientAddress
import PkuyoProxy.Analysis.Relaying

/-!
# Requests through a chain of proxies

A proxy may be the client of another one.  Each of them writes the two forwarding fields of a
request of announced length into its header block, and hands over what the next one can read in
the same way (`exists_hop`), if the line it prints of the request fits the buffer of its log.  So
behind any number of them a stream of such requests is still one, each with its start line, its
body and its other fields, with the addresses that the proxies saw at the end of its first list of
addresses, in their order, and the last of them as the client's address (`chain_conveys`).  What is
handed over is taken for what the next one receives: the contents are written whole.
-/

set_option autoImplicit false

namespace PkuyoProxy.Analysis

open PkuyoProxy.Lib PkuyoProxy.Model PkuyoProxy.Interface

variable {maxSize : ℕ} {addr : Bytes} {ls ls' ls'' : List Bytes}

/-! ## The other fields -/

/-- The line is of neither forwarding field. -/
def isOther (line : Bytes) : Bool :=
  valueOf xForwardedFor line = none ∧ valueOf xRealIp line = none

/-- The fields of a block that no proxy rewrites. -/
def otherFields (lines : List Bytes) : List Bytes := (lines.drop 1).filter isOther

/-- A list of addresses is none of the other fields. -/
theorem not_isOther_forwardedFor {line value : Bytes}
    (h : fieldOf line = some (xForwardedFor, value)) : isOther line = false := by
  have hvalue := @valueOf_of_field xForwardedFor _ _ _ h
  rw [if_pos rfl] at hvalue
  simp [isOther, hvalue]

/-- A client's address is none of the other fields. -/
theorem not_isOther_realIp {line value : Bytes} (h : valueOf xRealIp line = some value) :
    isOther line = false := by
  simp [isOther, h]

/-- A line of a forwarding field may be replaced by another one. -/
theorem otherFields_set {lines : List Bytes} {line : Bytes} {i : ℕ} (hi : 1 ≤ i)
    (hold : ∀ old, lines[i]? = some old → isOther old = false) (hnew : isOther line = false) :
    otherFields (lines.set i line) = otherFields lines := by
  obtain ⟨j, rfl⟩ : ∃ j, i = j + 1 := ⟨i - 1, by omega⟩
  cases lines with
  | nil => rfl
  | cons start fields =>
    have hfields (old : Bytes) (h : fields[j]? = some old) : isOther old = false := hold old h
    show (fields.set j line).filter isOther = fields.filter isOther
    clear hold
    induction fields generalizing j with
    | nil => rfl
    | cons l fields ih =>
      cases j with
      | zero =>
        have hl := hfields l rfl
        simp [hl, hnew]
      | succ j =>
        have hrest := ih j (by omega) fun old h => hfields old h
        simp only [List.set_cons_succ, List.filter_cons, hrest]

/-- Adding a line of the two leaves the other fields. -/
theorem otherFields_append {lines : List Bytes} (hne : lines ≠ []) {line : Bytes}
    (hnew : isOther line = false) : otherFields (lines ++ [line]) = otherFields lines := by
  obtain ⟨start, fields, rfl⟩ := List.exists_cons_of_ne_nil hne
  simp [otherFields, hnew]

/-- Rewriting the list of addresses leaves the other fields. -/
theorem setForwardedFor_others {scan : HeaderScan} (hne : ls ≠ []) (hscan : ScanOk ls scan) :
    otherFields (setForwardedFor scan addr ls) = otherFields ls := by
  unfold setForwardedFor
  cases hi : scan.xffIdx with
  | none => exact otherFields_append hne (not_isOther_forwardedFor (fieldOf_forwardedFor addr))
  | some i =>
    obtain ⟨hpos, line, hget, hfield⟩ := hscan.forwardedFor i hi
    have hgetD : ls.getD i [] = line := by simp [List.getD, hget]
    dsimp only
    rw [hgetD]
    refine otherFields_set hpos (fun old hold => ?_) ?_
    · obtain rfl : line = old := Option.some.inj (hget.symm.trans hold)
      exact not_isOther_forwardedFor hfield
    · simp only [List.append_assoc]
      exact not_isOther_forwardedFor (fieldOf_uptoColon hfield _)

/-- The whole rewriting leaves the other fields. -/
theorem rewriteLines_others (hne : ls ≠ []) :
    otherFields (rewriteLines true addr ls) = otherFields ls := by
  obtain ⟨start, fields, rfl⟩ := List.exists_cons_of_ne_nil hne
  have hscan := scanHeaders_ok true (start :: fields)
  have hxff := @setForwardedFor_others addr _ _ hne hscan
  obtain ⟨fields', more, hset, hfields, -⟩ := @setForwardedFor_fields start fields addr
  have hline : valueOf xRealIp (ascii "X-Real-IP: " ++ addr) = some (trim (32 :: addr)) := by
    rw [valueOf_of_field (fieldOf_realIp addr)]
    rfl
  have hnew := not_isOther_realIp hline
  refine Eq.trans ?_ hxff
  simp only [rewriteLines, if_true, setRealIp]
  cases hi : (scanHeaders true (start :: fields)).xriIdx with
  | none => exact otherFields_append (by rw [hset]; simp) hnew
  | some i =>
    obtain ⟨hpos, line, value, hget, hfield⟩ := hscan.realIp i hi
    obtain ⟨j, rfl⟩ : ∃ j, i = j + 1 := ⟨i - 1, by omega⟩
    refine otherFields_set hpos (fun old hold => ?_) hnew
    -- the line that is replaced has the value it had before the other field was set
    rw [hset, List.getElem?_cons_succ] at hold
    rw [List.getElem?_cons_succ] at hget
    have hvalue : valueOf xRealIp line = some value := by
      rw [valueOf_of_field hfield]
      rfl
    have hkept := congrArg (·[j]?) hfields
    have hlt : j < (fields.map (valueOf xRealIp)).length := by
      rw [List.length_map]
      exact (List.getElem?_eq_some_iff.mp hget).1
    simp only [List.getElem?_append_left hlt, List.getElem?_map, hget, hold, Option.map_some,
      hvalue, Option.some.injEq] at hkept
    exact not_isOther_realIp hkept

/-! ## Blocks behind a chain -/

/-- The values of the field that a receiver takes for the client's address. -/
def realIps (addrs values : List Bytes) : List Bytes :=
  match addrs.getLast? with
  | none => values
  | some addr => addr :: values.drop 1

/-- The lines of a block behind proxies that saw these addresses. -/
structure BehindProxies (addrs ls ls' : List Bytes) : Prop where
  start : ls'.head? = ls.head?
  others : otherFields ls' = otherFields ls
  framing : framing ls' = framing ls
  realIp : fieldValues xRealIp ls' = realIps addrs (fieldValues xRealIp ls)
  forwardedFor : listElements (fieldValues xForwardedFor ls') =
    listElements ((fieldValues xForwardedFor ls).take 1) ++ addrs ++
      listElements ((fieldValues xForwardedFor ls).drop 1)

/-- Behind no proxy a block is itself. -/
theorem BehindProxies.refl (ls : List Bytes) : BehindProxies [] ls ls := by
  refine ⟨rfl, rfl, rfl, rfl, ?_⟩
  rw [List.append_nil, ← listElements_append, List.take_append_drop]

/-- An address is a list with one element. -/
theorem listElements_element (h : IsElement addr) : listElements [addr] = [addr] := by
  simp [listElements, List.splitOn_eq_singleton h.no_comma, trim_of_trimmed h.trimmed]

/-- One more proxy in front. -/
theorem BehindProxies.cons {addrs : List Bytes}
    (h : BehindProxies addrs (rewriteLines true addr ls) ls') (hls : HeaderLines ls)
    (haddr : IsElement addr) : BehindProxies (addr :: addrs) ls ls' := by
  obtain ⟨hreal, hxff⟩ := rewriteLines_values hls.ne haddr
  have hcrlf : ¬ crlf <:+: addr := fun hin => haddr.no_cr (hin.subset (by simp [crlf]))
  have hhead : addr.head? ≠ some 10 := fun hh => haddr.no_lf (List.mem_of_head? hh)
  have hconveys := @rewriteLines_conveys true _ _ hls hcrlf hhead
  refine ⟨h.start.trans (rewriteLines_head? hls.ne), h.others.trans (rewriteLines_others hls.ne),
    h.framing.trans hconveys.framing, ?_, ?_⟩
  · rw [h.realIp, hreal]
    cases addrs with
    | nil => rfl
    | cons addr' addrs => simp [realIps, List.getLast?_cons]
  · rw [h.forwardedFor, hxff]
    cases hvalues : fieldValues xForwardedFor ls with
    | nil =>
      show listElements [addr] ++ addrs ++ [] = [] ++ addr :: addrs ++ []
      rw [listElements_element haddr]
      rfl
    | cons value values =>
      show listElements [value ++ ascii ", " ++ addr] ++ addrs ++ listElements values =
        listElements [value] ++ addr :: addrs ++ listElements values
      rw [listElements_appended haddr]
      simp

/-! ## One proxy -/

/-- A request of announced length, whose first line has three parts. -/
structure SizedRequest (maxSize : ℕ) where
  head : Bytes
  body : Bytes
  delimited : Delimited head
  starts : ∃ method target rest, RequestLine (firstLine (head ++ crlf)) method target rest
  announces : framing (splitHeaders (head ++ crlf)) = (false, body.length)
  body_lt : body.length < npos
  body_le : body.length ≤ maxSize

namespace SizedRequest

/-- The lines of the request's block. -/
def lines (m : SizedRequest maxSize) : List Bytes := splitHeaders (m.head ++ crlf)

/-- The bytes of the request. -/
def wire (m : SizedRequest maxSize) : Bytes := m.head ++ (crlf ++ crlf) ++ m.body

/-- The message as a proxy reads it whose client has this address. -/
def sized (m : SizedRequest maxSize) (addr : Bytes) : SizedMessage maxSize addr true where
  head := m.head
  body := m.body
  delimited := m.delimited
  announces := by
    obtain ⟨ls, hls, hhead⟩ := exists_headerLines m.delimited
    have hannounces := m.announces
    rw [hhead, splitHeaders_joinLines hls] at hannounces
    rw [announced_eq hls hhead, hannounces]
  body_lt := m.body_lt
  body_le := m.body_le

end SizedRequest

/-- What is handed over of a request is one again. -/
theorem exists_hop (m : SizedRequest maxSize) (haddr : IsElement addr) :
    ∃ m' : SizedRequest maxSize, m'.wire = (m.sized addr).relayed ∧ m'.body = m.body ∧
      HeaderLines m.lines ∧ m'.lines = rewriteLines true addr m.lines ∧
      firstLine (m'.head ++ crlf) = firstLine (m.head ++ crlf) := by
  obtain ⟨ls, hls, hhead⟩ := exists_headerLines m.delimited
  have hlines : splitHeaders (m.head ++ crlf) = ls := by
    rw [hhead, splitHeaders_joinLines hls]
  have hcrlf : ¬ crlf <:+: addr := fun hin => haddr.no_cr (hin.subset (by simp [crlf]))
  have hlf : addr.head? ≠ some 10 := fun hh => haddr.no_lf (List.mem_of_head? hh)
  have hconveys := @rewriteLines_conveys true _ _ hls hcrlf hlf
  obtain ⟨head', hhead'⟩ := exists_head hconveys.lines
  have hlines' : splitHeaders (head' ++ crlf) = rewriteLines true addr ls := by
    rw [hhead', splitHeaders_joinLines hconveys.lines]
  obtain ⟨method, target, rest, hstart⟩ := m.starts
  have hfirst : firstLine (head' ++ crlf) = firstLine (m.head ++ crlf) := by
    unfold firstLine
    rw [hlines', hlines, List.headD_eq_head?_getD, List.headD_eq_head?_getD,
      rewriteLines_head? hls.ne]
  refine ⟨⟨head', m.body, delimited_of_lines hconveys.lines hhead', ?_, ?_, m.body_lt, m.body_le⟩,
    ?_, rfl, ?_, ?_, hfirst⟩
  · exact ⟨method, target, rest, hfirst ▸ hstart⟩
  · rw [hlines', hconveys.framing, ← hlines, m.announces]
  · show head' ++ (crlf ++ crlf) ++ m.body = rewritten addr true m.head ++ m.body
    rw [rewritten_eq hls hhead, ← hhead']
    simp
  · rw [SizedRequest.lines, hlines]
    exact hls
  · rw [SizedRequest.lines, SizedRequest.lines, hlines', hlines]

/-- Whatever pieces the bytes come in, a proxy with this client prints lines that fit, takes the
bytes for valid requests and hands over these bytes. -/
def Hop (maxSize : ℕ) (peer : ConnHandler) (bytes bytes' : Bytes) : Prop :=
  ∀ pieces : List Bytes, pieces.flatten = bytes →
    ∃ r, LoggedFeeds maxSize pieces (.opened true peer) (.done r) ∧
      (∀ c ∈ r.passed, c.request.isValid = true) ∧ stream r.passed = bytes'

/-- The bytes of a line in front of its first space, and between that and the second one. -/
def startLength (line : Bytes) : ℕ :=
  let method := line.takeWhile (· ≠ 32)
  method.length + ((line.drop (method.length + 1)).takeWhile (· ≠ 32)).length

/-- The method, the target, and the address and port of the client leave room for what else is
printed. -/
def FitsLog (peer : ConnHandler) (m : SizedRequest maxSize) : Prop :=
  startLength (firstLine (m.head ++ crlf)) + peer.ip.length + (decimal peer.port).length ≤ 493

/-- The block that is handed over begins with the parts of the start line. -/
theorem exists_parts (m : SizedRequest maxSize) {method target rest : Bytes}
    (hstart : RequestLine (firstLine (m.head ++ crlf)) method target rest) (addr : Bytes) :
    ∃ behind, rewritten addr true m.head = method ++ 32 :: (target ++ 32 :: behind) := by
  obtain ⟨ls, hls, hhead⟩ := exists_headerLines m.delimited
  obtain ⟨start, fields, rfl⟩ := List.exists_cons_of_ne_nil hls.ne
  have hfirst : firstLine (m.head ++ crlf) = start := by
    rw [firstLine, hhead, splitHeaders_joinLines hls]
    rfl
  obtain ⟨fields', hlines⟩ : ∃ fields', rewriteLines true addr (start :: fields) =
      start :: fields' := by
    have hsame := @rewriteLines_head? true addr _ hls.ne
    exact List.head?_eq_some_iff.mp hsame
  refine ⟨rest ++ (crlf ++ joinLines crlf fields' ++ crlf), ?_⟩
  rw [rewritten_eq hls hhead, hlines, joinLines_cons, ← hfirst, hstart.parts]
  simp

/-- No more is shown of a text than was asked for, unless that is very much. -/
theorem shownLength_le {len : ℕ} (hlen : len < 2 ^ 31) (text : Bytes) :
    shownLength len text ≤ len := by
  have hmod : len % 2 ^ 32 = len := Nat.mod_eq_of_lt (by omega)
  unfold shownLength
  rw [hmod, if_pos hlen]
  exact Nat.min_le_left _ _

/-- The line that is printed of the request fits. -/
theorem FitsLog.blockFits {peer : ConnHandler} {m : SizedRequest maxSize} (h : FitsLog peer m) :
    BlockFits peer (rewritten peer.ip true m.head) := by
  obtain ⟨method, target, rest, hstart⟩ := m.starts
  obtain ⟨behind, hblock⟩ := exists_parts m hstart peer.ip
  have hlen : startLength (firstLine (m.head ++ crlf)) = method.length + target.length := by
    simp only [startLength, hstart.parts, takeWhile_cut hstart.method_space, drop_cut,
      takeWhile_cut hstart.target_space]
  rw [FitsLog, hlen] at h
  have hmethod := @shownLength_le method.length (by omega)
    (method ++ 32 :: (target ++ 32 :: behind))
  have htarget := @shownLength_le target.length (by omega) (target ++ 32 :: behind)
  rw [BlockFits, hblock, startLineShown_cut hstart.method_space hstart.target_space]
  omega

/-- The request that was read off such a message is valid. -/
theorem isValid_of_forwarded (m : SizedRequest maxSize) {c : HttpContext}
    (hextracted : Extracted true c) (hdelivered : delivered c = (m.sized addr).forwarded) :
    c.request.isValid = true := by
  obtain ⟨method, target, rest, hstart⟩ := m.starts
  obtain ⟨behind, hblock⟩ := exists_parts m hstart addr
  have hheader : c.header = method ++ 32 :: (target ++ 32 :: behind) :=
    (congrArg Prod.fst hdelivered).trans hblock
  have hrequest : c.request = (getRequestHead { header := c.header }).2.request := hextracted.1
  rw [hrequest, @getRequestHead_cut { header := c.header } _ _ _ hstart.method_space
    hstart.target_space hheader]
  simp [Request.isValid, hstart.method_ne, hstart.target_ne]

/-- **A proxy hands over the requests with their blocks rewritten**, if the lines it prints fit. -/
theorem hop_relayed {peer : ConnHandler} {ms : List (SizedRequest maxSize)}
    (hfits : ∀ m ∈ ms, FitsLog peer m) :
    Hop maxSize peer (ms.flatMap SizedRequest.wire)
      (ms.flatMap fun m => (m.sized peer.ip).relayed) := by
  intro pieces hpieces
  have hwires : (ms.map fun m => m.sized peer.ip).flatMap SizedMessage.wire =
      ms.flatMap SizedRequest.wire := by
    rw [List.flatMap_map]
    rfl
  have hwhole : pieces.flatten = (ms.map fun m => m.sized peer.ip).flatMap SizedMessage.wire := by
    rw [hpieces, hwires]
  obtain ⟨r, hfeeds, hpassed, hstate⟩ : ∃ r, Feeds maxSize pieces (.opened true peer) (.done r) ∧
      r.passed.map delivered = (ms.map fun m => m.sized peer.ip).map SizedMessage.forwarded ∧
      r.handler.state = .readHeaders := by
    obtain ⟨r, hfeeds, hpassed, hstate, -⟩ := @feeds_sized_stream maxSize
      (ParseRun.opened true peer).handler rfl rfl _ pieces hwhole
    exact ⟨r, hfeeds, hpassed, hstate⟩
  obtain ⟨r', hreach, hsame⟩ := feeds_passed hfeeds
  have hsame : r'.passed = r.passed := hsame
  have hprinted : PrintedFit r := by
    obtain ⟨fuel, hfeed⟩ := hfeeds
    refine (printedFit_delivered (feed_connection hfeed) hstate hpassed).mpr fun _ m' hm' => ?_
    obtain ⟨m, hm, rfl⟩ := List.mem_map.mp hm'
    exact (hfits m hm).blockFits
  refine ⟨r, (loggedFeeds_iff (printedFit_fresh rfl)).mpr ⟨hfeeds, hprinted⟩, fun c hc => ?_, ?_⟩
  · have hmem : delivered c ∈ (ms.map fun m => m.sized peer.ip).map SizedMessage.forwarded := by
      rw [← hpassed]
      exact List.mem_map_of_mem hc
    obtain ⟨_, hmem, hdelivered⟩ := List.mem_map.mp hmem
    obtain ⟨m, -, rfl⟩ := List.mem_map.mp hmem
    exact isValid_of_forwarded m (reaches_extracted hreach c (.inl (hsame ▸ hc))) hdelivered.symm
  · rw [stream_delivered, hpassed, ← relayed_forwarded, List.flatMap_map]

/-! ## Chains -/

/-- The bytes that the last one of a chain of proxies hands over, the first of which has the first
client. -/
inductive Chain (maxSize : ℕ) : List ConnHandler → Bytes → Bytes → Prop
  | nil (bytes : Bytes) : Chain maxSize [] bytes bytes
  | cons {peer : ConnHandler} {peers : List ConnHandler} {bytes bytes' bytes'' : Bytes}
      (hop : Hop maxSize peer bytes bytes') (rest : Chain maxSize peers bytes' bytes'') :
      Chain maxSize (peer :: peers) bytes bytes''

/-- A proxy hands over the same bytes for the same bytes. -/
theorem Hop.unique {peer : ConnHandler} {bytes bytes' bytes'' : Bytes}
    (h : Hop maxSize peer bytes bytes') (h' : Hop maxSize peer bytes bytes'') :
    bytes' = bytes'' := by
  obtain ⟨r, hlogged, -, rfl⟩ := h [bytes] (by simp)
  obtain ⟨r', hlogged', -, rfl⟩ := h' [bytes] (by simp)
  have hfresh : PrintedFit (.opened true peer) := printedFit_fresh rfl
  cases ((loggedFeeds_iff hfresh).mp hlogged).1.unique ((loggedFeeds_iff hfresh).mp hlogged').1
  rfl

/-- What comes out of a chain is determined by what goes in. -/
theorem Chain.unique {peers : List ConnHandler} {bytes bytes' bytes'' : Bytes}
    (h : Chain maxSize peers bytes bytes') (h' : Chain maxSize peers bytes bytes'') :
    bytes' = bytes'' := by
  induction h generalizing bytes'' with
  | nil => cases h'; rfl
  | cons hop _ ih =>
    cases h' with
    | cons hop' rest' =>
      cases hop.unique hop'
      exact ih rest'

/-- The message behind proxies that saw these addresses. -/
structure Carried (addrs : List Bytes) (m m' : SizedRequest maxSize) : Prop where
  body : m'.body = m.body
  block : BehindProxies addrs m.lines m'.lines

/-- A chain whose proxies print lines that fit hands the requests over. -/
theorem exists_chain {peers : List ConnHandler} (haddrs : ∀ peer ∈ peers, IsElement peer.ip)
    {ms : List (SizedRequest maxSize)} (hfits : ∀ peer ∈ peers, ∀ m ∈ ms, FitsLog peer m) :
    ∃ ms' : List (SizedRequest maxSize),
      List.Forall₂ (Carried (peers.map ConnHandler.ip)) ms ms' ∧
      Chain maxSize peers (ms.flatMap SizedRequest.wire) (ms'.flatMap SizedRequest.wire) := by
  induction peers generalizing ms with
  | nil =>
    refine ⟨ms, List.forall₂_same.mpr fun m _ => ⟨rfl, .refl _⟩, .nil _⟩
  | cons peer peers ih =>
    obtain ⟨haddr, haddrs⟩ := List.forall_mem_cons.mp haddrs
    obtain ⟨hfit, hfits⟩ := List.forall_mem_cons.mp hfits
    have hnext (m : SizedRequest maxSize) := exists_hop m haddr
    choose next hwire hbody hlines hrewritten hfirst using hnext
    have hfits' (peer' : ConnHandler) (hpeer' : peer' ∈ peers) :
        ∀ m' ∈ ms.map next, FitsLog peer' m' := by
      intro m' hm'
      obtain ⟨m, hm, rfl⟩ := List.mem_map.mp hm'
      rw [FitsLog, hfirst m]
      exact hfits peer' hpeer' m hm
    obtain ⟨ms', hcarried, hchain⟩ := ih haddrs hfits'
    refine ⟨ms', ?_, .cons (hop_relayed hfit) ?_⟩
    · refine (List.forall₂_map_left_iff.mp hcarried).imp ?_
      intro m m' h
      have hblock := h.block
      rw [hrewritten m] at hblock
      exact ⟨h.body.trans (hbody m), hblock.cons (hlines m) haddr⟩
    · rw [List.flatMap_map] at hchain
      rwa [funext hwire] at hchain

/-- The address and the port of a proxy's client. -/
structure Peer where
  quad : DottedQuad
  port : ℕ

/-- The connection of such a client. -/
def Peer.conn (p : Peer) : ConnHandler := { ip := p.quad.text, port := p.port }

/-- **Requests through a chain of proxies**: requests of announced length, not in chunks, whose
lines fit the log of every proxy come out of the last one whatever pieces their bytes come in on
the way, one for each, with its start line, body, framing and other fields, with the addresses
behind the first list of addresses, and the last one as the client's. -/
theorem chain_conveys (maxSize : ℕ) (peers : List Peer) (ms : List (SizedRequest maxSize))
    (hfits : ∀ p ∈ peers, ∀ m ∈ ms, FitsLog p.conn m) :
    ∃ ms' : List (SizedRequest maxSize),
      List.Forall₂ (Carried (peers.map fun p => p.quad.text)) ms ms' ∧
      ∀ bytes, Chain maxSize (peers.map Peer.conn) (ms.flatMap SizedRequest.wire) bytes ↔
        bytes = ms'.flatMap SizedRequest.wire := by
  have haddrs : ∀ peer ∈ peers.map Peer.conn, IsElement peer.ip := by
    intro peer hpeer
    obtain ⟨p, -, rfl⟩ := List.mem_map.mp hpeer
    exact p.quad.isElement
  obtain ⟨ms', hcarried, hchain⟩ := exists_chain haddrs (List.forall_mem_map.mpr hfits)
  rw [List.map_map] at hcarried
  refine ⟨ms', hcarried, fun bytes => ⟨fun h => h.unique hchain, ?_⟩⟩
  rintro rfl
  exact hchain

/-- The client 172.16.0.9. -/
def firstPeer : Peer where
  quad := ⟨ascii "172", ascii "16", ascii "0", ascii "9", by decide, by decide⟩
  port := 50000

/-- A proxy at 172.16.0.10. -/
def secondPeer : Peer where
  quad := ⟨ascii "172", ascii "16", ascii "0", ascii "10", by decide, by decide⟩
  port := 50001

/-- `PUT /page V` with a body of three bytes. -/
def chainedRequest : SizedRequest (2 ^ 62) where
  head := ascii "PUT /page V\r\nContent-Length: 3"
  body := ascii "new"
  delimited := by decide
  starts := ⟨ascii "PUT", ascii "/page", ascii "V", by decide, by decide, by decide, by decide,
    by decide⟩
  announces := by decide
  body_lt := by decide
  body_le := by decide

/-- A request through two proxies. -/
theorem chain_conveys_two :
    ∃ ms' : List (SizedRequest (2 ^ 62)),
      List.Forall₂ (Carried [firstPeer.quad.text, secondPeer.quad.text]) [chainedRequest] ms' ∧
      ∀ bytes, Chain (2 ^ 62) [firstPeer.conn, secondPeer.conn]
          ([chainedRequest].flatMap SizedRequest.wire) bytes ↔
        bytes = ms'.flatMap SizedRequest.wire := by
  refine chain_conveys (2 ^ 62) [firstPeer, secondPeer] [chainedRequest] ?_
  simp only [List.mem_cons, List.not_mem_nil, or_false, forall_eq_or_imp, forall_eq, FitsLog]
  decide

end PkuyoProxy.Analysis
