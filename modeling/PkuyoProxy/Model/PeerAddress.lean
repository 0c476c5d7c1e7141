import PkuyoProxy.Model.InetAddress
import PkuyoProxy.Model.NormalConnHandler

/-!
# The address of a peer (conn_handler.cpp:12-15)

`accept` fills in a `sockaddr_in`: the family in the byte order of the machine, the port and the
address in network order.  `inet_ntop` writes the first four bytes it is given as a dotted quad.
-/

set_option autoImplicit false

namespace PkuyoProxy.Model

/-- How a machine stores a number of two bytes. -/
inductive ByteOrder
  | little
  | big
  deriving DecidableEq, Repr

/-- The two bytes of a number, as they are stored. -/
def ByteOrder.bytes (order : ByteOrder) (n : UInt16) : Bytes :=
  match order with
  | .little => [n.toUInt8, (n >>> 8).toUInt8]
  | .big => [(n >>> 8).toUInt8, n.toUInt8]

/-- `AF_INET` -/
def afInet : UInt16 := 2

/-- `sockaddr_in` of the family `AF_INET`; `sinPort` is the number of the port. -/
structure SockaddrIn where
  sinPort : UInt16
  sinAddr : InAddr
  deriving DecidableEq, Repr

/-- The memory of the structure: family, port, address and padding. -/
def SockaddrIn.bytes (order : ByteOrder) (addr : SockaddrIn) : Bytes :=
  order.bytes afInet ++ ByteOrder.big.bytes addr.sinPort ++ addr.sinAddr.bytes ++
    List.replicate 8 0

/-- `inet_ntop` of the family `AF_INET` -/
def inetNtop (src : Bytes) : Bytes :=
  match src with
  | a :: b :: c :: d :: _ =>
    decimal a.toNat ++ ascii "." ++ decimal b.toNat ++ ascii "." ++ decimal c.toNat ++
      ascii "." ++ decimal d.toNat
  | _ => []

/-- conn_handler.cpp:12-15: the structure itself is formatted, not its `sin_addr`. -/
def ConnHandler.setupInfo (order : ByteOrder) (conn : ConnHandler) (addr : SockaddrIn) :
    ConnHandler :=
  { conn with ip := inetNtop (addr.bytes order), port := addr.sinPort.toNat }

end PkuyoProxy.Model
