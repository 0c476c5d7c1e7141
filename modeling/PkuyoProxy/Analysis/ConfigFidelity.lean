import PkuyoProxy.Analysis.BalancerSafety
import PkuyoProxy.Analysis.WeightedFairness
import PkuyoProxy.Interface.ConfigDocument

/-!
# `load_config` and the document it reads

Every backend of listener `i` is read from element `i` of its array, and `backend_count` is
never written.  So a document is loaded as it reads exactly when no listener has backends
(`loadConfig_faithful_iff`), and apart from the count exactly when all backends of a listener
read like the one at the listener's own index and their hosts are addresses: a name leaves the
record without one, as what `inet_pton` returns is not looked at.
-/

set_option autoImplicit false

namespace PkuyoProxy.Analysis

open PkuyoProxy.Lib PkuyoProxy.Model PkuyoProxy.Interface

/-! ## One balancer -/

/-- The weight that is loaded is the one that the document gives for the algorithm. -/
theorem loadWeight_eq {json : Json} {b : BackendDoc} (h : DescribesBackend json b)
    (algorithm : LoadBalancingAlgorithm) :
    loadWeight algorithm (some json) = b.effectiveWeight algorithm := by
  have hweight := h.weight
  unfold loadWeight BackendDoc.effectiveWeight
  cases hw : Json.objectGet (some json) (ascii "weight") with
  | none =>
    rw [hw, Option.map_none] at hweight
    rw [← hweight]
    rfl
  | some w =>
    rw [hw, Option.map_some] at hweight
    have hint : toInt (Json.integerValue (some w)) = Json.integerValue (some w) :=
      toInt_eq_self_iff.mpr (b.weight_isInt _ hweight.symm)
    rw [← hweight]
    simp only [hint, Function.comp, Option.getD_some]

/-- Loading a backend adds the one that the document describes, and its weight to the total. -/
theorem loadBackend_eq {json : Json} {b : BackendDoc} (h : DescribesBackend json b)
    (lb : LoadBalancerConfig) :
    loadBackend (some json) lb = .ok { lb with
      totalWeight :=
        if lb.algorithm = .weightedRoundRobin then
          toInt (lb.totalWeight + b.effectiveWeight lb.algorithm)
        else lb.totalWeight
      backends := lb.backends ++ [b.config lb.algorithm] } := by
  have hport : ((b.port : ℤ) % 2 ^ 16).toNat = b.port := by
    have := b.port_lt
    omega
  have hhost : requireString (Json.objectGet (some json) (ascii "host")) = .ok b.host := by
    rw [requireString, h.host]
  simp only [loadBackend, hhost, h.port, hport, loadWeight_eq h, bind, Except.bind, pure,
    Except.pure]
  rfl

/-- What `n` rounds that read the same element leave. -/
def loadedBalancer (name : AlgorithmName) (b : BackendDoc) (n : ℕ) : LoadBalancerConfig where
  totalWeight :=
    if name = .weightedRoundRobin then
      toInt (List.replicate n (b.effectiveWeight name.algorithm)).sum
    else 0
  algorithm := name.algorithm
  backends := List.replicate n (b.config name.algorithm)

/-- Loading the list adds the same backend as often as it is long. -/
theorem loadBackends_eq {json : Json} {b : BackendDoc} (h : DescribesBackend json b)
    (name : AlgorithmName) (n : ℕ) :
    (List.range n).foldlM (fun lb _ => loadBackend (some json) lb)
        { algorithm := name.algorithm } = .ok (loadedBalancer name b n) := by
  induction n with
  | zero =>
    unfold loadedBalancer
    cases name <;> rfl
  | succ n ih =>
    have hweighted : name.algorithm = .weightedRoundRobin ↔ name = .weightedRoundRobin := by
      cases name <;> simp [AlgorithmName.algorithm]
    have hlast := loadBackend_eq h (loadedBalancer name b n)
    rw [List.range_succ, List.foldlM_append, ih]
    simp only [bind, Except.bind, List.foldlM_cons, hlast, List.foldlM_nil, pure, Except.pure]
    by_cases hname : name = .weightedRoundRobin
    · subst hname
      simp only [loadedBalancer, AlgorithmName.algorithm, if_true, toInt_toInt_add,
        List.replicate_succ', List.sum_append, List.sum_singleton]
    · simp only [loadedBalancer, hweighted, hname, if_false, List.replicate_succ']

/-- What the balancer of listener `i` is loaded as. -/
def LoadedAs (uninit : LoadBalancingAlgorithm) (i : ℕ) (lb : LoadBalancerConfig) : Target → Prop
  | .balanced name backends =>
    (backends = [] ∧ lb = { algorithm := name.algorithm }) ∨
      ∃ b, backends[i]? = some b ∧ lb = loadedBalancer name b backends.length
  | .root _ => lb = { algorithm := uninit }

/-- The balancer of a document with backends is loaded as the document is read. -/
theorem loadBalancer_eq_ok_iff {item : Json} {name : AlgorithmName} {backends : List BackendDoc}
    (h : DescribesTarget item (.balanced name backends)) (uninit : LoadBalancingAlgorithm) (i : ℕ)
    (lb : LoadBalancerConfig) :
    loadBalancer uninit (some item) i = .ok lb ↔
      LoadedAs uninit i lb (.balanced name backends) := by
  obtain ⟨hname, elements, helements, hbackends⟩ := h
  have hlen := hbackends.length_eq
  have hrequire : requireString (Json.objectGet (some item) (ascii "load_balancing")) =
      .ok name.text := by rw [requireString, hname]
  simp only [loadBalancer, hrequire, helements, bind, Except.bind, Json.arraySize, hlen,
    Json.arrayGet, algorithmNamed_text]
  cases hi : elements[i]? with
  | some json =>
    obtain ⟨hlt, hjson⟩ := List.getElem?_eq_some_iff.mp hi
    have hlt' : i < backends.length := hlen ▸ hlt
    have hb : DescribesBackend json backends[i] := by
      rw [← hjson]
      exact hbackends.get hlt hlt'
    have hget : backends[i]? = some backends[i] := List.getElem?_eq_getElem hlt'
    have hne : backends ≠ [] := List.ne_nil_of_length_pos (by omega)
    rw [loadBackends_eq hb, LoadedAs, hget]
    simp [hne, eq_comm]
  | none =>
    have hle : backends.length ≤ i := hlen ▸ List.getElem?_eq_none_iff.mp hi
    have hnone : backends[i]? = none := List.getElem?_eq_none_iff.mpr hle
    simp only [LoadedAs, hnone, reduceCtorEq, false_and, exists_false, or_false]
    cases backends with
    | nil => simp [pure, Except.pure, eq_comm]
    | cons b backends =>
      rw [List.length_cons, List.range_succ_eq_map, List.foldlM_cons]
      simp [loadBackend, requireString, Json.objectGet, Json.stringValue, bind, Except.bind]

/-! ## One listener -/

/-- A text is copied exactly if it is shorter than the buffer. -/
theorem strcpy256_eq_ok_iff {json : Option Json} {s t : Bytes}
    (h : Json.stringValue json = some s) : strcpy256 json = .ok t ↔ s.length < 256 ∧ t = s := by
  have hrequire : requireString json = .ok s := by rw [requireString, h]
  simp only [strcpy256, hrequire, bind, Except.bind]
  split
  · rename_i hlt
    simp [hlt, eq_comm]
  · rename_i hlt
    simp [hlt]

/-- The certificates are loaded exactly if their names fit. -/
theorem loadSsl_eq_ok_iff {item : Json} {d : ListenerDoc} (h : DescribesListener item d)
    {lc lc' : ListenerConfig} (hssl : lc.isSsl = d.ssl.isSome) (hkey : lc.sslKeyFile = [])
    (hcert : lc.sslCertFile = []) :
    loadSsl (some item) lc = .ok lc' ↔
      (∀ files ∈ d.ssl, files.1.length < 256 ∧ files.2.length < 256) ∧
        lc' = { lc with
          sslKeyFile := (d.ssl.map Prod.fst).getD []
          sslCertFile := (d.ssl.map Prod.snd).getD [] } := by
  unfold loadSsl
  cases hd : d.ssl with
  | none =>
    obtain ⟨port, serverName, processCount, checkHealthTime, isSsl, cert, key, type, lb, root⟩ := lc
    obtain rfl : isSsl = false := by simpa [hd] using hssl
    obtain rfl : key = [] := hkey
    obtain rfl : cert = [] := hcert
    simp [eq_comm]
  | some files =>
    obtain ⟨hk, hc⟩ := h.files files hd
    simp only [hssl, hd, Option.isSome_some, if_true, Option.map_some, Option.getD_some]
    constructor
    · intro hload
      obtain ⟨key, hkey', hload⟩ := bind_eq_ok_iff.mp hload
      obtain ⟨cert, hcert', hload⟩ := bind_eq_ok_iff.mp hload
      cases hload
      obtain ⟨hklen, rfl⟩ := (strcpy256_eq_ok_iff hk).mp hkey'
      obtain ⟨hclen, rfl⟩ := (strcpy256_eq_ok_iff hc).mp hcert'
      refine ⟨?_, rfl⟩
      rintro f ⟨⟩
      exact ⟨hklen, hclen⟩
    · rintro ⟨hlen, rfl⟩
      obtain ⟨hklen, hclen⟩ := hlen files rfl
      have hkey' := (strcpy256_eq_ok_iff hk).mpr ⟨hklen, rfl⟩
      have hcert' := (strcpy256_eq_ok_iff hc).mpr ⟨hclen, rfl⟩
      simp only [hkey', hcert', bind, Except.bind, pure, Except.pure]

/-- The record, completed with what is served. -/
def serving (lc : ListenerConfig) (lb : LoadBalancerConfig) : Target → ListenerConfig
  | .balanced _ _ => { lc with backendType := .loadBalancer, loadBalancer := lb }
  | .root path => { lc with backendType := .static, loadBalancer := lb, rootPath := path }

/-- The target is loaded exactly as the document is read. -/
theorem loadBackendType_eq_ok_iff {item : Json} {target : Target}
    (h : DescribesTarget item target) (uninit : LoadBalancingAlgorithm) (i : ℕ)
    {lc lc' : ListenerConfig} (hlb : lc.loadBalancer = { algorithm := uninit }) :
    loadBackendType uninit (some item) i lc = .ok lc' ↔
      ∃ lb, LoadedAs uninit i lb target ∧ lc' = serving lc lb target := by
  unfold loadBackendType
  cases target with
  | balanced name backends =>
    obtain ⟨-, elements, helements, -⟩ := id h
    rw [helements]
    dsimp only
    rw [bind_eq_ok_iff]
    simp only [loadBalancer_eq_ok_iff h, pure, Except.pure, Except.ok.injEq, serving, eq_comm]
  | root path =>
    obtain ⟨hnone, hroot⟩ := h
    have hrequire : requireString (Json.objectGet (some item) (ascii "root")) = .ok path := by
      rw [requireString, hroot]
    simp only [hnone, hrequire, bind, Except.bind, pure, Except.pure, Except.ok.injEq, LoadedAs,
      exists_eq_left, serving, ← hlb, eq_comm]

/-- The fields that do not depend on what is served. -/
def commonConfig (d : ListenerDoc) (uninit : LoadBalancingAlgorithm) : ListenerConfig where
  port := d.port
  serverName := d.serverName
  processCount := d.processCount
  checkHealthTime := d.checkHealthTime.getD (-1)
  isSsl := d.ssl.isSome
  loadBalancer := { algorithm := uninit }

/-- Certificates and target are loaded together exactly as the document is read. -/
theorem loadRest_eq_ok_iff {item : Json} {d : ListenerDoc} (h : DescribesListener item d)
    (uninit : LoadBalancingAlgorithm) (i : ℕ) (lc : ListenerConfig) :
    loadSsl (some item) (commonConfig d uninit) >>= loadBackendType uninit (some item) i =
        .ok lc ↔
      (∀ files ∈ d.ssl, files.1.length < 256 ∧ files.2.length < 256) ∧
        ∃ lb, LoadedAs uninit i lb d.target ∧
          lc = { d.config uninit with loadBalancer := lb } := by
  have hssl (lc' : ListenerConfig) :=
    @loadSsl_eq_ok_iff item d h (commonConfig d uninit) lc' rfl rfl rfl
  rw [bind_eq_ok_iff]
  simp only [hssl, and_assoc, exists_and_left, exists_eq_left]
  refine and_congr_right fun _ => ?_
  rw [loadBackendType_eq_ok_iff h.target uninit i (by rfl)]
  refine exists_congr fun lb => and_congr_right fun _ => ?_
  unfold ListenerDoc.config
  cases d.target <;> rfl

/-- **What a listener is loaded as.** -/
theorem loadListener_eq_ok_iff {item : Json} {d : ListenerDoc} (h : DescribesListener item d)
    (uninit : LoadBalancingAlgorithm) (i : ℕ) (lc : ListenerConfig) :
    loadListener uninit (some item) i = .ok lc ↔
      d.Fits ∧ ∃ lb, LoadedAs uninit i lb d.target ∧
        lc = { d.config uninit with loadBalancer := lb } := by
  have hport := toInt_eq_self_iff.mpr d.port_isInt
  have hprocess := toInt_eq_self_iff.mpr d.processCount_isInt
  have htime := h.checkHealthTime
  have hrest := loadRest_eq_ok_iff h uninit i lc
  unfold loadListener
  rw [bind_eq_ok_iff]
  simp only [strcpy256_eq_ok_iff h.serverName, h.port, h.processCount, hport, hprocess, h.ssl,
    and_assoc, exists_and_left, exists_eq_left, ListenerDoc.Fits, ← hrest]
  refine and_congr_right fun _ => ?_
  unfold commonConfig
  cases hget : Json.objectGet (some item) (ascii "check_health_time") with
  | none =>
    rw [hget, Option.map_none] at htime
    rw [← htime]
    rfl
  | some t =>
    rw [hget, Option.map_some] at htime
    have ht : toInt (Json.integerValue (some t)) = Json.integerValue (some t) :=
      toInt_eq_self_iff.mpr (d.checkHealthTime_isInt _ htime.symm)
    rw [← htime]
    simp only [ht, Function.comp, Option.getD_some]

/-! ## The document -/

/-- The document is loaded, with one record for each of its items, in order, that is related
by `R` to the record the item describes. -/
def LoadedWith (R : ListenerConfig → ListenerConfig → Prop) (uninit : ℕ → LoadBalancingAlgorithm)
    (root : Json) (docs : List ListenerDoc) : Prop :=
  ∃ config, loadConfig uninit (some root) = .ok (some config) ∧
    config.listenerCount = docs.length ∧ config.listeners.length = docs.length ∧
    ∀ (i : ℕ) (d : ListenerDoc) (lc : ListenerConfig), docs[i]? = some d →
      config.listeners[i]? = some lc → R (d.config (uninit i)) lc

/-- The listeners are loaded one by one, as many as the count says, which is an `int`. -/
theorem loadConfig_eq_some_iff {uninit : ℕ → LoadBalancingAlgorithm} {root : Json}
    {items : List Json}
    (hitems : Json.objectGet (some root) (ascii "listen_ports") = some (.array items))
    (config : ProxyConfig) :
    loadConfig uninit (some root) = .ok (some config) ↔
      ∃ listeners, (List.range (toInt items.length).toNat).mapM (fun i =>
        loadListener (uninit i) items[i]? i) = .ok listeners ∧
          config = ⟨listeners, toInt items.length⟩ := by
  simp only [loadConfig, hitems, Json.arraySize, Json.arrayGet]
  rw [bind_eq_ok_iff]
  refine exists_congr fun listeners => and_congr_right fun _ => ?_
  simp [pure, Except.pure, eq_comm]

/-- A configuration is loaded as the document is read, listener by listener. -/
theorem loadedWith_iff {R : ListenerConfig → ListenerConfig → Prop} {root : Json}
    {docs : List ListenerDoc} (h : Describes root docs) (uninit : ℕ → LoadBalancingAlgorithm) :
    LoadedWith R uninit root docs ↔
      docs.length < 2 ^ 31 ∧ ∀ i d, docs[i]? = some d → d.Fits ∧
        ∃ lb, LoadedAs (uninit i) i lb d.target ∧
          R (d.config (uninit i)) { d.config (uninit i) with loadBalancer := lb } := by
  obtain ⟨items, hitems, hdocs⟩ := h
  have hlen := hdocs.length_eq
  have hload := @loadConfig_eq_some_iff uninit root items hitems
  rw [hlen] at hload
  have hint : toInt docs.length = docs.length ↔ docs.length < 2 ^ 31 := by
    rw [toInt_eq_self_iff, IsInt]
    omega
  have hitem {i : ℕ} {d : ListenerDoc} (hd : docs[i]? = some d) (lc : ListenerConfig) :
      loadListener (uninit i) items[i]? i = .ok lc ↔ d.Fits ∧
        ∃ lb, LoadedAs (uninit i) i lb d.target ∧
          lc = { d.config (uninit i) with loadBalancer := lb } := by
    obtain ⟨hlt, rfl⟩ := List.getElem?_eq_some_iff.mp hd
    have hlt' : i < items.length := hlen ▸ hlt
    rw [List.getElem?_eq_getElem hlt']
    exact loadListener_eq_ok_iff (hdocs.get hlt' hlt) (uninit i) i lc
  constructor
  · rintro ⟨config, hok, hcount, hlength, hR⟩
    obtain ⟨listeners, hmap, rfl⟩ := (hload config).mp hok
    dsimp only at hcount
    have hlt := hint.mp hcount
    rw [hint.mpr hlt, Int.toNat_natCast] at hmap
    refine ⟨hlt, fun i d hd => ?_⟩
    obtain ⟨hid, -⟩ := List.getElem?_eq_some_iff.mp hd
    have hrel := forall₂_range_iff.mpr ⟨hlength.symm, fun i lc hlc d hd => hR i d lc hd hlc⟩
    obtain ⟨lc, hlc, hRlc⟩ :=
      exists_mapM_ok_iff.mp ⟨listeners, hmap, hrel⟩ i (List.mem_range.mpr hid)
    obtain ⟨hfits, lb, hlb, rfl⟩ := (hitem hd lc).mp hlc
    exact ⟨hfits, lb, hlb, hRlc d hd⟩
  · rintro ⟨hlt, hall⟩
    have heach (i : ℕ) (hi : i ∈ List.range docs.length) : ∃ lc,
        loadListener (uninit i) items[i]? i = .ok lc ∧
          ∀ d, docs[i]? = some d → R (d.config (uninit i)) lc := by
      have hid := List.mem_range.mp hi
      have hd : docs[i]? = some docs[i] := List.getElem?_eq_getElem hid
      obtain ⟨hfits, lb, hlb, hR⟩ := hall i _ hd
      refine ⟨_, (hitem hd _).mpr ⟨hfits, lb, hlb, rfl⟩, fun d hd' => ?_⟩
      obtain rfl : docs[i] = d := Option.some.inj (hd.symm.trans hd')
      exact hR
    obtain ⟨listeners, hmap, hrel⟩ := exists_mapM_ok_iff.mpr heach
    obtain ⟨hlength, hR⟩ := forall₂_range_iff.mp hrel
    have hcount := hint.mpr hlt
    refine ⟨⟨listeners, toInt docs.length⟩, (hload _).mpr ⟨listeners, ?_, rfl⟩, ?_,
      hlength.symm, fun i d lc hd hlc => hR i lc hlc d hd⟩
    · simpa only [hcount, Int.toNat_natCast] using hmap
    · dsimp only
      exact hcount

/-- The document is loaded as it reads: each host is an address, as no record has another host, and
each listener is loaded into its record. -/
def Faithful (uninit : ℕ → LoadBalancingAlgorithm) (root : Json) (docs : List ListenerDoc) : Prop :=
  (∀ d ∈ docs, d.Addressed) ∧ LoadedWith (fun expected lc => lc = expected) uninit root docs

/-- The document is loaded as it reads, whatever the counts of backends are. -/
def FaithfulButCount (uninit : ℕ → LoadBalancingAlgorithm) (root : Json)
    (docs : List ListenerDoc) : Prop :=
  (∀ d ∈ docs, d.Addressed) ∧ LoadedWith (fun expected lc =>
    { lc with loadBalancer :=
      { lc.loadBalancer with backendCount := expected.loadBalancer.backendCount } } = expected)
    uninit root docs

/-- Each backend of the listener reads like the one at the listener's own index, which exists,
and the sum of their weights is an `int`. -/
def Alike (i : ℕ) : Target → Prop
  | .balanced name backends =>
    (∀ b ∈ backends, ∃ b', backends[i]? = some b' ∧ b'.config name.algorithm =
      b.config name.algorithm) ∧
    (name = .weightedRoundRobin →
      IsInt (backends.map fun b => b.effectiveWeight name.algorithm).sum)
  | .root _ => True

/-- What holds at every index holds of every element. -/
theorem forall_mem_iff {α : Type} {l : List α} {p : α → Prop} :
    (∀ (i : ℕ) (x : α), l[i]? = some x → p x) ↔ ∀ x ∈ l, p x := by
  simp only [List.mem_iff_getElem?]
  exact ⟨fun h x ⟨i, hi⟩ => h i x hi, fun h i x hi => h x ⟨i, hi⟩⟩

/-- A listener is loaded as it is described exactly if it has no backends. -/
theorem faithful_listener_iff (d : ListenerDoc) (uninit : LoadBalancingAlgorithm) (i : ℕ) :
    (∃ lb, LoadedAs uninit i lb d.target ∧
      { d.config uninit with loadBalancer := lb } = d.config uninit) ↔ d.backends = [] := by
  have hlb (lb : LoadBalancerConfig) :
      { d.config uninit with loadBalancer := lb } = d.config uninit ↔
        lb = (d.config uninit).loadBalancer := by
    constructor
    · intro h
      exact congrArg ListenerConfig.loadBalancer h
    · rintro rfl
      rfl
  simp only [hlb, exists_eq_right]
  unfold ListenerDoc.config ListenerDoc.backends
  cases d.target with
  | root path => simp [LoadedAs]
  | balanced name backends =>
    constructor
    · rintro (⟨hnil, -⟩ | ⟨b, hb, heq⟩)
      · exact hnil
      · -- the count was never written
        have hcount := congrArg LoadBalancerConfig.backendCount heq
        exact List.length_eq_zero_iff.mp hcount
    · rintro rfl
      exact .inl ⟨rfl, by cases name <;> rfl⟩

/-- Rounds that read one element give the balancer of elements that read like it. -/
theorem loadedBalancer_eq_iff (name : AlgorithmName) (b : BackendDoc) (backends : List BackendDoc) :
    { loadedBalancer name b backends.length with backendCount := backends.length } =
        ListenerDoc.balancerConfig name backends ↔
      (∀ b' ∈ backends, b.config name.algorithm = b'.config name.algorithm) ∧
        (name = .weightedRoundRobin →
          IsInt (backends.map fun b' => b'.effectiveWeight name.algorithm).sum) := by
  have hlist : List.replicate backends.length (b.config name.algorithm) =
      backends.map (fun b' => b'.config name.algorithm) ↔
        ∀ b' ∈ backends, b.config name.algorithm = b'.config name.algorithm := by
    rw [eq_comm, List.map_eq_replicate_iff]
    simp only [eq_comm]
  have hweights (h : ∀ b' ∈ backends, b.config name.algorithm = b'.config name.algorithm) :
      List.replicate backends.length (b.effectiveWeight name.algorithm) =
        backends.map fun b' => b'.effectiveWeight name.algorithm := by
    rw [eq_comm, List.map_eq_replicate_iff]
    exact fun b' hb' => (congrArg BackendServerConfig.weight (h b' hb')).symm
  constructor
  · intro h
    have hb := hlist.mp (congrArg LoadBalancerConfig.backends h)
    refine ⟨hb, fun hname => ?_⟩
    have htotal := congrArg LoadBalancerConfig.totalWeight h
    simp only [loadedBalancer, ListenerDoc.balancerConfig, if_pos hname, hweights hb] at htotal
    exact toInt_eq_self_iff.mp htotal
  · rintro ⟨hb, hsum⟩
    simp only [loadedBalancer, ListenerDoc.balancerConfig, hlist.mpr hb, hweights hb]
    by_cases hname : name = .weightedRoundRobin
    · simp only [if_pos hname, toInt_eq_self_iff.mpr (hsum hname)]
    · simp only [if_neg hname]

/-- But for the count a listener is loaded as it is described exactly if its backends are alike. -/
theorem alike_listener_iff (d : ListenerDoc) (uninit : LoadBalancingAlgorithm) (i : ℕ) :
    (∃ lb, LoadedAs uninit i lb d.target ∧
      { d.config uninit with loadBalancer := { lb with
        backendCount := (d.config uninit).loadBalancer.backendCount } } = d.config uninit) ↔
      Alike i d.target := by
  have hlb (lb : LoadBalancerConfig) :
      { d.config uninit with loadBalancer := { lb with
        backendCount := (d.config uninit).loadBalancer.backendCount } } = d.config uninit ↔
        { lb with backendCount := (d.config uninit).loadBalancer.backendCount } =
          (d.config uninit).loadBalancer := by
    constructor
    · intro h
      exact congrArg ListenerConfig.loadBalancer h
    · intro h
      rw [h]
  simp only [hlb]
  unfold ListenerDoc.config
  cases d.target with
  | root path => simp [LoadedAs, Alike]
  | balanced name backends =>
    have hiff (b : BackendDoc) := loadedBalancer_eq_iff name b backends
    constructor
    · rintro ⟨lb, ⟨rfl, -⟩ | ⟨b, hb, rfl⟩, heq⟩
      · exact ⟨by simp, fun _ => by simp [IsInt]⟩
      · obtain ⟨hall, hsum⟩ := (hiff b).mp heq
        exact ⟨fun b' hb' => ⟨b, hb, hall b' hb'⟩, hsum⟩
    · rintro ⟨hall, hsum⟩
      cases hi : backends[i]? with
      | none =>
        obtain rfl : backends = [] := by
          refine List.eq_nil_iff_forall_not_mem.mpr fun b hb => ?_
          obtain ⟨b', hb', -⟩ := hall b hb
          rw [hi] at hb'
          cases hb'
        exact ⟨_, .inl ⟨rfl, rfl⟩, by cases name <;> rfl⟩
      | some b =>
        refine ⟨_, .inr ⟨b, hi, rfl⟩, (hiff b).mpr ⟨fun b' hb' => ?_, hsum⟩⟩
        obtain ⟨b₀, hb₀, heq⟩ := hall b' hb'
        rw [hi] at hb₀
        cases hb₀
        exact heq

/-- **Configuration fidelity.**  A document is loaded as it reads exactly when its texts fit and no
listener has backends; apart from the counts, when the hosts are addresses and the backends of
listener `i` all read like its backend `i`. -/
theorem loadConfig_faithful_iff (uninit : ℕ → LoadBalancingAlgorithm) (root : Json)
    (docs : List ListenerDoc) (h : Describes root docs) :
    (Faithful uninit root docs ↔
      docs.length < 2 ^ 31 ∧ ∀ d ∈ docs, d.Fits ∧ d.backends = []) ∧
    (FaithfulButCount uninit root docs ↔
      docs.length < 2 ^ 31 ∧
        ∀ i d, docs[i]? = some d → d.Fits ∧ d.Addressed ∧ Alike i d.target) := by
  constructor
  · unfold Faithful
    rw [loadedWith_iff h]
    simp only [faithful_listener_iff, forall_mem_iff]
    refine ⟨And.right, fun hloaded => ⟨fun d hd => ?_, hloaded⟩⟩
    have hnone := (hloaded.2 d hd).2
    simp [ListenerDoc.Addressed, hnone]
  · unfold FaithfulButCount
    rw [loadedWith_iff h, ← forall_mem_iff]
    simp only [alike_listener_iff]
    constructor
    · rintro ⟨haddr, hlt, hall⟩
      exact ⟨hlt, fun i d hd => ⟨(hall i d hd).1, haddr i d hd, (hall i d hd).2⟩⟩
    · rintro ⟨hlt, hall⟩
      exact ⟨fun i d hd => (hall i d hd).2.1, hlt,
        fun i d hd => ⟨(hall i d hd).1, (hall i d hd).2.2⟩⟩

/-! ## Examples -/

/-- A backend on this host. -/
def localBackend (port : ℕ) (h : port < 2 ^ 16) : BackendDoc where
  host := ascii "127.0.0.1"
  port := port
  weight := none
  port_lt := h
  weight_isInt := by simp

/-- A listener with two backends. -/
def twoBackendsDoc : ListenerDoc where
  port := 8080
  serverName := ascii "server1"
  processCount := 4
  checkHealthTime := none
  ssl := none
  target :=
    .balanced .leastConnections [localBackend 8000 (by decide), localBackend 8001 (by decide)]
  port_isInt := by unfold IsInt; decide
  processCount_isInt := by unfold IsInt; decide
  checkHealthTime_isInt := by simp

/-- The document of two backends describes them. -/
theorem twoBackends_described :
    Describes (twoBackendsDocument (ascii "least_connections") 4) [twoBackendsDoc] := by
  refine ⟨_, rfl, .cons ⟨rfl, rfl, rfl, rfl, rfl, by simp [twoBackendsDoc], ?_⟩ .nil⟩
  exact ⟨rfl, _, rfl, .cons ⟨rfl, rfl, rfl⟩ (.cons ⟨rfl, rfl, rfl⟩ .nil)⟩

/-- Both equivalences for a document with two backends. -/
theorem loadConfig_faithful_iff_twoBackends :
    (Faithful (fun _ => .unset) (twoBackendsDocument (ascii "least_connections") 4)
        [twoBackendsDoc] ↔
      [twoBackendsDoc].length < 2 ^ 31 ∧ ∀ d ∈ [twoBackendsDoc], d.Fits ∧ d.backends = []) ∧
    (FaithfulButCount (fun _ => .unset) (twoBackendsDocument (ascii "least_connections") 4)
        [twoBackendsDoc] ↔
      [twoBackendsDoc].length < 2 ^ 31 ∧
        ∀ i d, [twoBackendsDoc][i]? = some d → d.Fits ∧ d.Addressed ∧ Alike i d.target) :=
  loadConfig_faithful_iff _ _ _ twoBackends_described

/-- The listener is loaded with two copies of its first backend and a count of zero. -/
theorem not_faithful_twoBackends :
    ¬ ∀ (uninit : ℕ → LoadBalancingAlgorithm) (root : Json) (docs : List ListenerDoc),
      Describes root docs → Faithful uninit root docs := by
  intro hall
  have hfaithful := hall (fun _ => .unset) _ _ twoBackends_described
  obtain ⟨-, heach⟩ := (loadedWith_iff twoBackends_described _).mp hfaithful.2
  have hnone := (faithful_listener_iff twoBackendsDoc _ 0).mp (heach 0 twoBackendsDoc rfl).2
  cases hnone

end PkuyoProxy.Analysis
