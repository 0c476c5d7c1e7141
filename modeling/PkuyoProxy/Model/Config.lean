import PkuyoProxy.Model.InetAddress

/-!
# The configuration (def.h:17-61, config_loader.cpp)

`load_config` reads a JSON document with jansson's accessors, which answer with a null
pointer, zero or false where the value is not of the kind they ask for.
-/

set_option autoImplicit false

namespace PkuyoProxy.Model

/-- The value an `int` holds after a conversion or an overflow. -/
def toInt (n : ℤ) : ℤ := n.bmod (2 ^ 32)

/-! ## Configuration records -/

/-- `unset` stands for a value that is none of the enumeration's. -/
inductive LoadBalancingAlgorithm
  | roundRobin
  | weightedRoundRobin
  | leastConnections
  | unset
  deriving DecidableEq, Repr

/-- `server_addr`, whose memory is filled with zeros at first. -/
structure ServerAddr where
  sinPort : ℕ
  sinAddr : InAddr := inaddrAny
  deriving DecidableEq, Repr

/-- def.h:23-26 -/
structure BackendServerConfig where
  serverAddr : ServerAddr
  weight : ℤ := 0
  deriving DecidableEq, Repr

/-- def.h:28-34 -/
structure LoadBalancerConfig where
  backendCount : ℕ := 0
  totalWeight : ℤ := 0
  algorithm : LoadBalancingAlgorithm
  backends : List BackendServerConfig := []
  deriving DecidableEq, Repr

/-- def.h:51-54 -/
inductive BackendType
  | loadBalancer
  | static
  deriving DecidableEq, Repr

/-- def.h:40-60 -/
structure ListenerConfig where
  port : ℤ := 0
  serverName : Bytes := []
  processCount : ℤ := 0
  checkHealthTime : ℤ := -1
  isSsl : Bool := false
  sslCertFile : Bytes := []
  sslKeyFile : Bytes := []
  backendType : BackendType := .static
  loadBalancer : LoadBalancerConfig
  rootPath : Bytes := []
  deriving DecidableEq, Repr

/-- def.h:62-65 -/
structure ProxyConfig where
  listeners : List ListenerConfig
  listenerCount : ℤ
  deriving DecidableEq, Repr

/-! ## JSON values -/

/-- A parsed document; the keys of an object are distinct, its integers 64 bits wide and its
strings free of NUL. -/
inductive Json
  | null
  | bool (b : Bool)
  | integer (n : ℤ)
  | real
  | string (s : Bytes)
  | array (elements : List Json)
  | object (members : List (Bytes × Json))

namespace Json

/-- `json_object_get` -/
def objectGet (json : Option Json) (key : Bytes) : Option Json :=
  match json with
  | some (.object members) => members.lookup key
  | _ => none

/-- `json_array_size` -/
def arraySize (json : Option Json) : ℕ :=
  match json with
  | some (.array elements) => elements.length
  | _ => 0

/-- `json_array_get` -/
def arrayGet (json : Option Json) (i : ℕ) : Option Json :=
  match json with
  | some (.array elements) => elements[i]?
  | _ => none

/-- `json_integer_value` -/
def integerValue (json : Option Json) : ℤ :=
  match json with
  | some (.integer n) => n
  | _ => 0

/-- `json_string_value` -/
def stringValue (json : Option Json) : Option Bytes :=
  match json with
  | some (.string s) => some s
  | _ => none

/-- `json_is_true` -/
def isTrue (json : Option Json) : Bool :=
  match json with
  | some (.bool b) => b
  | _ => false

end Json

/-! ## Loading -/

/-- How `load_config` can fail to return: a string is made from a null pointer, or a text does
not fit its array. -/
inductive LoadFault
  | nullString
  | overflow
  deriving DecidableEq, Repr

/-- The text of a string value where a null pointer cannot be used. -/
def requireString (json : Option Json) : Except LoadFault Bytes :=
  match Json.stringValue json with
  | none => .error .nullString
  | some s => .ok s

/-- `strcpy` into an array of 256 bytes. -/
def strcpy256 (json : Option Json) : Except LoadFault Bytes := do
  let s ← requireString json
  if s.length < 256 then .ok s else .error .overflow

/-- The algorithm of a listener; a name that is not known leaves `algorithm` with whatever it
holds (config_loader.cpp:46-56). -/
def algorithmNamed (uninit : LoadBalancingAlgorithm) (name : Bytes) : LoadBalancingAlgorithm :=
  if name = ascii "weighted_round_robin" then .weightedRoundRobin
  else if name = ascii "round_robin" then .roundRobin
  else if name = ascii "least_connections" then .leastConnections
  else uninit

/-- The weight of a backend; a weighted round robin takes one for zero
(config_loader.cpp:67-72). -/
def loadWeight (algorithm : LoadBalancingAlgorithm) (backendItem : Option Json) : ℤ :=
  let weight :=
    match Json.objectGet backendItem (ascii "weight") with
    | none => 0
    | some w => toInt (Json.integerValue (some w))
  if algorithm = .weightedRoundRobin ∧ weight = 0 then 1 else weight

/-- config_loader.cpp:60-74: one backend, added to those before it.  Whether `inet_pton` could read
the host is not looked at. -/
def loadBackend (backendItem : Option Json) (lb : LoadBalancerConfig) :
    Except LoadFault LoadBalancerConfig := do
  let sinPort := (Json.integerValue (Json.objectGet backendItem (ascii "port")) % 2 ^ 16).toNat
  let host ← requireString (Json.objectGet backendItem (ascii "host"))
  let weight := loadWeight lb.algorithm backendItem
  return { lb with
    totalWeight :=
      if lb.algorithm = .weightedRoundRobin then toInt (lb.totalWeight + weight)
      else lb.totalWeight
    backends := lb.backends ++
      [{ serverAddr := { sinPort, sinAddr := (inetPton host).getD inaddrAny }, weight }] }

/-- config_loader.cpp:44-77; every backend is read from the element with the listener's own
index `i`. -/
def loadBalancer (uninit : LoadBalancingAlgorithm) (item : Option Json) (i : ℕ) :
    Except LoadFault LoadBalancerConfig := do
  let backends := Json.objectGet item (ascii "backends")
  let loadBalancing ← requireString (Json.objectGet item (ascii "load_balancing"))
  (List.range (Json.arraySize backends)).foldlM
    (fun lb _ => loadBackend (Json.arrayGet backends i) lb)
    { algorithm := algorithmNamed uninit loadBalancing }

/-- config_loader.cpp:36-40 -/
def loadSsl (item : Option Json) (lc : ListenerConfig) : Except LoadFault ListenerConfig :=
  if lc.isSsl then do
    let sslKeyFile ← strcpy256 (Json.objectGet item (ascii "key"))
    let sslCertFile ← strcpy256 (Json.objectGet item (ascii "cert"))
    return { lc with sslKeyFile, sslCertFile }
  else .ok lc

/-- config_loader.cpp:42-82 -/
def loadBackendType (uninit : LoadBalancingAlgorithm) (item : Option Json) (i : ℕ)
    (lc : ListenerConfig) : Except LoadFault ListenerConfig :=
  match Json.objectGet item (ascii "backends") with
  | some _ => do
    let lb ← loadBalancer uninit item i
    return { lc with backendType := .loadBalancer, loadBalancer := lb }
  | none => do
    let rootPath ← requireString (Json.objectGet item (ascii "root"))
    return { lc with backendType := .static, rootPath }

/-- config_loader.cpp:24-83 -/
def loadListener (uninit : LoadBalancingAlgorithm) (item : Option Json) (i : ℕ) :
    Except LoadFault ListenerConfig := do
  let serverName ← strcpy256 (Json.objectGet item (ascii "server_name"))
  let lc ← loadSsl item
    { port := toInt (Json.integerValue (Json.objectGet item (ascii "port")))
      serverName
      processCount := toInt (Json.integerValue (Json.objectGet item (ascii "process_count")))
      checkHealthTime :=
        match Json.objectGet item (ascii "check_health_time") with
        | none => -1
        | some health => toInt (Json.integerValue (some health))
      isSsl := Json.isTrue (Json.objectGet item (ascii "ssl"))
      loadBalancer := { algorithm := uninit } }
  loadBackendType uninit item i lc

/-- config_loader.cpp:12-88 on the document `json_load_file` gave; a result without a
configuration is the return value `-1`.  `uninit i` is what the memory of the algorithm of
listener `i` happens to hold. -/
def loadConfig (uninit : ℕ → LoadBalancingAlgorithm) (root : Option Json) :
    Except LoadFault (Option ProxyConfig) :=
  match root with
  | none => .ok none
  | some _ => do
    let listenPorts := Json.objectGet root (ascii "listen_ports")
    let listenerCount := toInt (Json.arraySize listenPorts)
    let listeners ← (List.range listenerCount.toNat).mapM fun i =>
      loadListener (uninit i) (Json.arrayGet listenPorts i) i
    return some { listeners, listenerCount }

end PkuyoProxy.Model
