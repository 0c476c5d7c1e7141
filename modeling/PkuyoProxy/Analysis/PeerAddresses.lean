import PkuyoProxy.Analysis.ClientAddress
import PkuyoProxy.Interface.Decimal
import PkuyoProxy.Model.PeerAddress

/-!
# The address the proxy forwards

`setup_info` formats the bytes in front of the address, the family and the port.  So what is
forwarded is the client's address exactly if its bytes happen to be those, and two clients have
the same text exactly if their ports are the same (`addressForwarded_iff`).
-/

set_option autoImplicit false

namespace PkuyoProxy.Analysis

open PkuyoProxy.Lib PkuyoProxy.Model PkuyoProxy.Interface

/-! ## Dotted quads -/

/-- The text of an address. -/
def quadOf (x : InAddr) : DottedQuad where
  first := decimal x.first.toNat
  second := decimal x.second.toNat
  third := decimal x.third.toNat
  fourth := decimal x.fourth.toNat
  octet_ne :=
    ⟨decimal_ne_nil _, decimal_ne_nil _, decimal_ne_nil _, decimal_ne_nil _⟩
  digits := by
    intro c hc
    simp only [List.mem_append] at hc
    rcases hc with ((hc | hc) | hc) | hc <;> exact isDigit_decimal _ c hc

/-- `inet_ntop` reads the first four bytes. -/
theorem inetNtop_bytes (x : InAddr) (rest : Bytes) :
    inetNtop (x.bytes ++ rest) = (quadOf x).text := rfl

/-- Different bytes have different decimal texts. -/
theorem decimal_injective {x y : UInt8} (h : decimal x.toNat = decimal y.toNat) : x = y := by
  apply UInt8.toNat_inj.mp
  rw [← digitsValue_decimal x.toNat, h, digitsValue_decimal y.toNat]

/-- A dotted quad is read back at its dots. -/
theorem splitOn_text (q : DottedQuad) :
    q.text.splitOn 46 = [q.first, q.second, q.third, q.fourth] := by
  have hno {s : Bytes} (hs : ∀ c ∈ s, isDigit 10 c = true) : 46 ∉ s :=
    notMem_digits hs (by decide)
  have hdigits := q.digits
  simp only [List.mem_append] at hdigits
  have htext : q.text = q.first ++ 46 :: (q.second ++ 46 :: (q.third ++ 46 :: q.fourth)) := by
    simp [DottedQuad.text, ascii]
  rw [htext, List.splitOn_append_cons_self, List.splitOn_append_cons_self,
    List.splitOn_append_cons_self, List.splitOn_eq_singleton, List.splitOn_eq_singleton,
    List.splitOn_eq_singleton, List.splitOn_eq_singleton]
  · rfl
  · exact hno fun c hc => hdigits c (.inr hc)
  · exact hno fun c hc => hdigits c (.inl (.inr hc))
  · exact hno fun c hc => hdigits c (.inl (.inl (.inr hc)))
  · exact hno fun c hc => hdigits c (.inl (.inl (.inl hc)))

/-- Different addresses have different texts. -/
theorem text_eq_iff {x y : InAddr} : (quadOf x).text = (quadOf y).text ↔ x = y := by
  refine ⟨fun h => ?_, fun h => by rw [h]⟩
  have hsplit := congrArg (List.splitOn 46) h
  rw [splitOn_text, splitOn_text] at hsplit
  simp only [quadOf, List.cons.injEq, and_true] at hsplit
  obtain ⟨hfirst, hsecond, hthird, hfourth⟩ := hsplit
  cases x
  cases y
  rw [InAddr.mk.injEq]
  exact ⟨decimal_injective hfirst, decimal_injective hsecond, decimal_injective hthird,
    decimal_injective hfourth⟩

/-- Addresses with the same bytes are the same. -/
theorem bytes_eq_iff {x y : InAddr} : x.bytes = y.bytes ↔ x = y := by
  cases x
  cases y
  simp [InAddr.bytes]

/-! ## What is formatted -/

/-- The four bytes at the beginning of the structure, as an address. -/
def formatted (order : ByteOrder) (port : UInt16) : InAddr :=
  match order with
  | .little => ⟨2, 0, (port >>> 8).toUInt8, port.toUInt8⟩
  | .big => ⟨0, 2, (port >>> 8).toUInt8, port.toUInt8⟩

/-- What is formatted are the family and the port. -/
theorem formatted_bytes (order : ByteOrder) (port : UInt16) :
    (formatted order port).bytes = order.bytes afInet ++ ByteOrder.big.bytes port := by
  cases order <;> rfl

/-- What is formatted is the same for the same port only. -/
theorem formatted_inj {order : ByteOrder} {port port' : UInt16} :
    formatted order port = formatted order port' ↔ port = port' := by
  refine ⟨fun h => ?_, fun h => by rw [h]⟩
  have hbytes : (port >>> 8).toUInt8 = (port' >>> 8).toUInt8 ∧ port.toUInt8 = port'.toUInt8 := by
    cases order <;> simpa [formatted] using h
  have hhigh := congrArg UInt8.toNat hbytes.1
  have hlow := congrArg UInt8.toNat hbytes.2
  have hlt := port.toNat_lt
  have hlt' := port'.toNat_lt
  simp only [UInt16.toNat_toUInt8, UInt16.toNat_shiftRight, Nat.shiftRight_eq_div_pow] at hhigh hlow
  apply UInt16.toNat_inj.mp
  simp at hhigh
  omega

/-- The text that is set up is that of what is formatted. -/
theorem setupInfo_ip (order : ByteOrder) (conn : ConnHandler) (client : SockaddrIn) :
    (conn.setupInfo order client).ip = (quadOf (formatted order client.sinPort)).text := by
  rw [← inetNtop_bytes _ (client.sinAddr.bytes ++ List.replicate 8 0), formatted_bytes]
  simp only [ConnHandler.setupInfo, SockaddrIn.bytes, List.append_assoc]

/-! ## What is forwarded -/

/-- The text is that of the client's address, and so is the first `X-Real-IP` value of the block
that is forwarded. -/
structure AddressForwarded (order : ByteOrder) (conn : ConnHandler) (client : SockaddrIn)
    (head : Bytes) : Prop where
  ip : (conn.setupInfo order client).ip = (quadOf client.sinAddr).text
  realIp : (fieldValues xRealIp
    (splitHeaders (rewritten (conn.setupInfo order client).ip true head))).head? =
      some (quadOf client.sinAddr).text

/-- The first `X-Real-IP` value of a forwarded block is the text the proxy has. -/
theorem realIp_rewritten {head : Bytes} (h : Delimited head) (q : DottedQuad) :
    (fieldValues xRealIp (splitHeaders (rewritten q.text true head))).head? = some q.text := by
  obtain ⟨lines, hlines, hhead⟩ := exists_headerLines h
  obtain ⟨hsplit, hne⟩ := splitHeaders_rewritten hlines hhead q.isElement
  obtain ⟨hreal, -⟩ := rewriteLines_values hlines.ne q.isElement
  rw [hsplit, fieldValues_blank hne, hreal]
  rfl

/-- **The forwarded address is the client's** exactly when its bytes are those of the family and
the port; and two clients have the same text exactly when they have the same port. -/
theorem addressForwarded_iff (order : ByteOrder) (conn : ConnHandler) (client : SockaddrIn)
    (head : Bytes) (h : Delimited head) :
    (AddressForwarded order conn client head ↔
        client.sinAddr.bytes = order.bytes afInet ++ ByteOrder.big.bytes client.sinPort) ∧
      ∀ (conn' : ConnHandler) (client' : SockaddrIn),
        (conn.setupInfo order client).ip = (conn'.setupInfo order client').ip ↔
          client.sinPort = client'.sinPort := by
  refine ⟨⟨fun hforwarded => ?_, fun hbytes => ?_⟩, fun conn' client' => ?_⟩
  · have hip := hforwarded.ip
    rw [setupInfo_ip, text_eq_iff] at hip
    rw [← formatted_bytes, hip]
  · rw [← formatted_bytes, bytes_eq_iff] at hbytes
    have hip := setupInfo_ip order conn client
    rw [← hbytes] at hip
    refine ⟨hip, ?_⟩
    rw [hip]
    exact realIp_rewritten h _
  · rw [setupInfo_ip, setupInfo_ip, text_eq_iff]
    exact formatted_inj

/-- The loopback address, with port 50000. -/
def loopback : SockaddrIn := ⟨50000, ⟨127, 0, 0, 1⟩⟩

/-- Both equivalences for a client on the loopback address. -/
theorem addressForwarded_iff_loopback :
    (AddressForwarded .little {} loopback oneLineEach ↔
        loopback.sinAddr.bytes = ByteOrder.little.bytes afInet ++ ByteOrder.big.bytes 50000) ∧
      ∀ (conn' : ConnHandler) (client' : SockaddrIn),
        (ConnHandler.setupInfo .little {} loopback).ip = (conn'.setupInfo .little client').ip ↔
          loopback.sinPort = client'.sinPort :=
  addressForwarded_iff .little {} loopback oneLineEach (by decide)

/-- The loopback address is forwarded as 2.0.195.80, and so is every other address with that
port. -/
theorem loopback_not_forwarded :
    (ConnHandler.setupInfo .little {} loopback).ip = ascii "2.0.195.80" ∧
    (¬ ∀ order conn client head, Delimited head → AddressForwarded order conn client head) ∧
    ¬ ∀ (order : ByteOrder) (conn conn' : ConnHandler) (client client' : SockaddrIn),
      client.sinAddr ≠ client'.sinAddr →
        (conn.setupInfo order client).ip ≠ (conn'.setupInfo order client').ip := by
  refine ⟨by decide +kernel, fun hall => ?_, fun hall => ?_⟩
  · have hip := (hall .little {} loopback oneLineEach (by decide)).ip
    revert hip
    decide +kernel
  · exact hall .little {} {} loopback ⟨50000, ⟨10, 0, 0, 1⟩⟩ (by decide) rfl

end PkuyoProxy.Analysis
