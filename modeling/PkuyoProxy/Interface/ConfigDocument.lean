import PkuyoProxy.Model.Config
import Mathlib.Data.List.Forall2

/-!
# What a configuration document says (config/proxy_config.json)

A document of the expected shape names the listeners, each with backends or a root directory;
`Describes` reads that off the JSON values, in whatever order their members stand.  `config`
is the record such a listener is to be loaded into.
-/

set_option autoImplicit false

namespace PkuyoProxy.Interface

open PkuyoProxy.Model

/-- The values of an `int`. -/
def IsInt (n : ℤ) : Prop := -2 ^ 31 ≤ n ∧ n < 2 ^ 31

/-- An integer is converted to an `int` unchanged exactly if it is in the range of the type. -/
theorem toInt_eq_self_iff {n : ℤ} : toInt n = n ↔ IsInt n := by
  unfold toInt IsInt
  rw [Int.bmod_eq_iff (by decide)]
  constructor
  · rintro ⟨hlo, hhi, -⟩
    omega
  · rintro ⟨hlo, hhi⟩
    exact ⟨by omega, by omega, by simp⟩

/-- An element of a `backends` array. -/
structure BackendDoc where
  host : Bytes
  port : ℕ
  weight : Option ℤ
  port_lt : port < 2 ^ 16
  weight_isInt : ∀ w ∈ weight, IsInt w

/-- A weight, or one for zero or none under a weighted round robin. -/
def BackendDoc.effectiveWeight (b : BackendDoc) (algorithm : LoadBalancingAlgorithm) : ℤ :=
  if algorithm = .weightedRoundRobin ∧ b.weight.getD 0 = 0 then 1 else b.weight.getD 0

/-- The host is an address, as `inet_pton` reads one. -/
def BackendDoc.Addressed (b : BackendDoc) : Prop := (inetPton b.host).isSome

/-- The record of the element; for a host that is no address there is none, and this is the one
without an address. -/
def BackendDoc.config (b : BackendDoc) (algorithm : LoadBalancingAlgorithm) :
    BackendServerConfig where
  serverAddr := { sinPort := b.port, sinAddr := (inetPton b.host).getD inaddrAny }
  weight := b.effectiveWeight algorithm

/-- The names of the algorithms in a document. -/
inductive AlgorithmName
  | roundRobin
  | weightedRoundRobin
  | leastConnections
  deriving DecidableEq, Repr

/-- The name as it stands in the document. -/
def AlgorithmName.text : AlgorithmName → Bytes
  | .roundRobin => ascii "round_robin"
  | .weightedRoundRobin => ascii "weighted_round_robin"
  | .leastConnections => ascii "least_connections"

/-- The algorithm of the name. -/
def AlgorithmName.algorithm : AlgorithmName → LoadBalancingAlgorithm
  | .roundRobin => .roundRobin
  | .weightedRoundRobin => .weightedRoundRobin
  | .leastConnections => .leastConnections

/-- The text of an algorithm's name is read as this algorithm. -/
theorem algorithmNamed_text (uninit : LoadBalancingAlgorithm) (name : AlgorithmName) :
    algorithmNamed uninit name.text = name.algorithm := by
  cases name <;> rfl

/-- What a listener serves. -/
inductive Target
  | balanced (name : AlgorithmName) (backends : List BackendDoc)
  | root (path : Bytes)

/-- An item of `listen_ports`; `ssl` holds the key and the certificate file. -/
structure ListenerDoc where
  port : ℤ
  serverName : Bytes
  processCount : ℤ
  checkHealthTime : Option ℤ
  ssl : Option (Bytes × Bytes)
  target : Target
  port_isInt : IsInt port
  processCount_isInt : IsInt processCount
  checkHealthTime_isInt : ∀ t ∈ checkHealthTime, IsInt t

namespace ListenerDoc

/-- The backends that the document describes. -/
def backends (d : ListenerDoc) : List BackendDoc :=
  match d.target with
  | .balanced _ backends => backends
  | .root _ => []

/-- The hosts of all its backends are addresses. -/
def Addressed (d : ListenerDoc) : Prop := ∀ b ∈ d.backends, b.Addressed

/-- The texts that are copied into arrays of 256 bytes leave room for a NUL. -/
def Fits (d : ListenerDoc) : Prop :=
  d.serverName.length < 256 ∧
    ∀ files ∈ d.ssl, files.1.length < 256 ∧ files.2.length < 256

/-- The balancer of a listener, with its derived totals. -/
def balancerConfig (name : AlgorithmName) (backends : List BackendDoc) : LoadBalancerConfig where
  backendCount := backends.length
  totalWeight :=
    if name = .weightedRoundRobin then
      (backends.map fun b => b.effectiveWeight name.algorithm).sum
    else 0
  algorithm := name.algorithm
  backends := backends.map fun b => b.config name.algorithm

/-- The record of the listener; `uninit` is the algorithm of a balancer that is not used. -/
def config (d : ListenerDoc) (uninit : LoadBalancingAlgorithm) : ListenerConfig :=
  let common : ListenerConfig :=
    { port := d.port
      serverName := d.serverName
      processCount := d.processCount
      checkHealthTime := d.checkHealthTime.getD (-1)
      isSsl := d.ssl.isSome
      sslKeyFile := (d.ssl.map Prod.fst).getD []
      sslCertFile := (d.ssl.map Prod.snd).getD []
      loadBalancer := { algorithm := uninit } }
  match d.target with
  | .balanced name backends =>
    { common with backendType := .loadBalancer, loadBalancer := balancerConfig name backends }
  | .root path => { common with backendType := .static, rootPath := path }

end ListenerDoc

/-! ## Reading a document -/

/-- The element `json` of a `backends` array says `b`. -/
structure DescribesBackend (json : Json) (b : BackendDoc) : Prop where
  host : Json.stringValue (Json.objectGet (some json) (ascii "host")) = some b.host
  port : Json.integerValue (Json.objectGet (some json) (ascii "port")) = b.port
  weight : (Json.objectGet (some json) (ascii "weight")).map (Json.integerValue ∘ some) = b.weight

/-- The item says what is served. -/
def DescribesTarget (item : Json) : Target → Prop
  | .balanced name backends =>
    Json.stringValue (Json.objectGet (some item) (ascii "load_balancing")) = some name.text ∧
      ∃ elements, Json.objectGet (some item) (ascii "backends") = some (.array elements) ∧
        List.Forall₂ DescribesBackend elements backends
  | .root path =>
    Json.objectGet (some item) (ascii "backends") = none ∧
      Json.stringValue (Json.objectGet (some item) (ascii "root")) = some path

/-- The item of `listen_ports` says `d`. -/
structure DescribesListener (item : Json) (d : ListenerDoc) : Prop where
  port : Json.integerValue (Json.objectGet (some item) (ascii "port")) = d.port
  serverName : Json.stringValue (Json.objectGet (some item) (ascii "server_name")) =
    some d.serverName
  processCount : Json.integerValue (Json.objectGet (some item) (ascii "process_count")) =
    d.processCount
  checkHealthTime :
    (Json.objectGet (some item) (ascii "check_health_time")).map (Json.integerValue ∘ some) =
      d.checkHealthTime
  ssl : Json.isTrue (Json.objectGet (some item) (ascii "ssl")) = d.ssl.isSome
  files : ∀ files ∈ d.ssl,
    Json.stringValue (Json.objectGet (some item) (ascii "key")) = some files.1 ∧
      Json.stringValue (Json.objectGet (some item) (ascii "cert")) = some files.2
  target : DescribesTarget item d.target

/-- The document says `docs`. -/
def Describes (root : Json) (docs : List ListenerDoc) : Prop :=
  ∃ items, Json.objectGet (some root) (ascii "listen_ports") = some (.array items) ∧
    List.Forall₂ DescribesListener items docs

end PkuyoProxy.Interface
