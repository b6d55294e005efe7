/-
`lhlh_conf.load_config` and the refresh of the tables: the settings, the node list and the two
whitelists are read from files, then `cluster_nodes` learns more nodes. The node list is only ever
appended to, so that a refresh adds its nodes to all those of the refreshes before it.
-/
import NgProxy.Cluster.Nodes
import NgProxy.Cluster.Open

namespace NgProxy.Config

open Lua Codec Cluster Prog

/-! ## `load_config` -/

/-- What `parse_file` returns: the sections with their keys. -/
abbrev Ini := Bytes → Option (Bytes → Option Value)

/-- A file that can be opened: its lines, and whether reading fails behind them. -/
structure File where
  lines : List Bytes
  broken : Bool

/-- The keys of `g_config`. -/
inductive Setting where
  | proxyTimeout
  | proxyKeepaliveSize
  | proxyKeepaliveDuration
  | proxyTryCount
  | proxyClusterId
  | slowlogTime
  deriving DecidableEq

namespace Setting

/-- The name in section `proxy` of the file. -/
def name : Setting → Bytes
  | proxyTimeout => bytes "proxy_timeout"
  | proxyKeepaliveSize => bytes "keepalive_size"
  | proxyKeepaliveDuration => bytes "keepalive_duration"
  | proxyTryCount => bytes "try_count"
  | proxyClusterId => bytes "cluster_id"
  | slowlogTime => bytes "slowlog_time"

def default : Setting → Value
  | proxyTimeout => .num (.int 2000)
  | proxyKeepaliveSize => .num (.int 1000)
  | proxyKeepaliveDuration => .num (.int 20000)
  | proxyTryCount => .num (.int 5)
  | proxyClusterId => .str (bytes "bj001")
  | slowlogTime => .num (.int 100)

/-- In the order they are assigned. -/
def all : List Setting :=
  [proxyTimeout, proxyKeepaliveSize, proxyKeepaliveDuration, proxyTryCount, proxyClusterId, slowlogTime]

/-- `conf["proxy"][name] and conf["proxy"][name] or default`. -/
def read (proxy : Bytes → Option Value) (k : Setting) : Value :=
  if ((proxy k.name).getD .nil).truthy then (proxy k.name).getD .nil else k.default

end Setting

/-- The tables of a worker that a refresh writes. -/
structure Tables (W : Type) where
  cluster : St W
  config : Setting → Option Value
  ipWhitelist : Bytes → Bool
  cmdWhitelist : Bytes → Bool

/-- Code that runs on these tables. -/
abbrev Conf (W : Type) := Prog LuaError (Tables W)

variable {W : Type}

/-- Code of the cluster modules. -/
def onCluster {α : Type} (x : Run W α) : Conf W α := Prog.zoom Tables.cluster (fun c s => { s with cluster := c }) x

/-- `conf[name]`, to be indexed. -/
def iniSection (conf : Ini) (name : Bytes) : Conf W (Bytes → Option Value) :=
  match conf name with
  | none => Prog.raise .index
  | some keys => pure keys

def assignSettings (proxy : Bytes → Option Value) : Conf W Unit :=
  Prog.forEach (fun k => Prog.modify fun s =>
    { s with config := fun j => if j = k then some (k.read proxy) else s.config j }) Setting.all

/-- A node of the list: `host:port`. -/
def listedNode (t : Bytes) : Node :=
  let node := splitLoop (bytes ":") 1000 t
  ⟨node.headD [], node[1]?.bind tonumber⟩

/-- `node_list`, inserted into `g_redis_cluster_nodes`; `#nodes` refuses numbers and booleans. -/
def insertNodes (nodes : Value) : Conf W Unit := do
  let _ ← Prog.lift nodes.len
  match nodes.toStr with
  | none => Prog.raise .argument
  | some text => Prog.forEach (fun t => onCluster (appendNode (listedNode t))) (splitLoop (bytes ",") 1000 text)

/-- The whitelist of a section: whether its file could be opened. It is cleared and then filled line by
line. -/
def readWhitelist (put : (Bytes → Bool) → Tables W → Tables W) (get : Tables W → Bytes → Bool) (name : Bytes)
    (files : Bytes → Option File) (conf : Ini) : Conf W Bool := do
  let keys ← iniSection conf name
  match ((keys (bytes "path")).getD .nil).toStr with
  | none => Prog.raise .argument
  | some path =>
    match files path with
    | none => pure false
    | some file => do
      Prog.modify (put fun _ => false)
      Prog.forEach (fun line => Prog.modify fun s => put (fun l => l = line || get s l) s) file.lines
      if file.broken then Prog.raise .read else pure true

def readIpWhitelist : (Bytes → Option File) → Ini → Conf W Bool :=
  readWhitelist (fun l s => { s with ipWhitelist := l }) Tables.ipWhitelist (bytes "ip_whitelist")

def readCmdWhitelist : (Bytes → Option File) → Ini → Conf W Bool :=
  readWhitelist (fun l s => { s with cmdWhitelist := l }) Tables.cmdWhitelist (bytes "cmd_whitelist")

/-- The lists behind the settings: without nodes, or without the first whitelist, the rest is not read. -/
def loadLists (files : Bytes → Option File) (conf : Ini) (nodes : Value) : Conf W Unit :=
  if nodes.truthy then do
    insertNodes nodes
    let found ← readIpWhitelist files conf
    if found then do
      let _ ← readCmdWhitelist files conf
      pure ()
    else pure ()
  else pure ()

/-- `load_config`; `conf` is what `parse_file` has made of the file, if it could be opened. -/
def loadConfig (files : Bytes → Option File) (conf : Option Ini) : Conf W Unit :=
  match conf with
  | none => pure ()
  | some conf => do
    let proxy ← iniSection conf (bytes "proxy")
    assignSettings proxy
    loadLists files conf ((proxy (bytes "node_list")).getD .nil)

/-- A refresh: `load_config` and then `cluster_nodes`. -/
def refreshTables (net : Net W) (files : Bytes → Option File) (conf : Option Ini) : Conf W Unit := do
  loadConfig files conf
  onCluster (clusterNodes net)

/-! ## What is appended to the node list -/

/-- `g_redis_cluster_nodes`. -/
def Tables.nodes (s : Tables W) : List Node := s.cluster.nodes

theorem onCluster_appends {α : Type} {x : Run W α} {r : Except LuaError α} {l : List Node}
    (h : Appends St.nodes x r l) : Appends Tables.nodes (onCluster x) r l :=
  h.zoom (fun _ => rfl) fun _ _ => rfl

theorem iniSection_appends (conf : Ini) (name : Bytes) :
    ∃ r l, ∀ _ : Unit, Appends Tables.nodes (iniSection conf name : Conf W _) r l := by
  unfold iniSection
  split
  · exact ⟨_, _, fun _ => Appends.raise _⟩
  · exact ⟨_, _, fun _ => Appends.pure _⟩

theorem readWhitelist_appends {put : (Bytes → Bool) → Tables W → Tables W} (hput : ∀ l s, (put l s).nodes = s.nodes)
    (get : Tables W → Bytes → Bool) (name : Bytes) (files : Bytes → Option File) (conf : Ini) :
    ∃ r l, ∀ _ : Unit, Appends Tables.nodes (readWhitelist put get name files conf) r l := by
  have hmodify : ∀ f : Tables W → Bytes → Bool, ∃ r l, ∀ _ : Unit,
      Appends Tables.nodes (modify fun s => put (f s) s : Conf W Unit) r l :=
    fun f => ⟨_, [], fun _ => Appends.modify fun s => by rw [hput, List.append_nil]⟩
  refine Appends.bind (iniSection_appends conf name) fun keys => ?_
  split
  · exact ⟨_, _, fun _ => Appends.raise _⟩
  · split
    · exact ⟨_, _, fun _ => Appends.pure _⟩
    · rename_i file _
      refine Appends.bind (hmodify _) fun _ => Appends.bind (Appends.forEach fun line _ => hmodify _) fun _ => ?_
      split
      · exact ⟨_, _, fun _ => Appends.raise _⟩
      · exact ⟨_, _, fun _ => Appends.pure _⟩

theorem insertNodes_appends (nodes : Value) :
    ∃ r l, ∀ _ : Unit, Appends Tables.nodes (insertNodes nodes : Conf W Unit) r l := by
  refine Appends.bind ⟨nodes.len, [], fun _ s => ⟨rfl, (List.append_nil _).symm⟩⟩ fun _ => ?_
  split
  · exact ⟨_, _, fun _ => Appends.raise _⟩
  · exact Appends.forEach fun t _ => ⟨_, [listedNode t], fun _ => onCluster_appends (Appends.modify fun s => rfl)⟩

theorem readIpWhitelist_appends (files : Bytes → Option File) (conf : Ini) :
    ∃ r l, ∀ _ : Unit, Appends Tables.nodes (readIpWhitelist files conf : Conf W Bool) r l := by
  unfold readIpWhitelist
  apply readWhitelist_appends
  exact fun _ _ => rfl

theorem readCmdWhitelist_appends (files : Bytes → Option File) (conf : Ini) :
    ∃ r l, ∀ _ : Unit, Appends Tables.nodes (readCmdWhitelist files conf : Conf W Bool) r l := by
  unfold readCmdWhitelist
  apply readWhitelist_appends
  exact fun _ _ => rfl

/-- Whether `load_config` returns and what it appends is decided by the files alone. -/
theorem loadConfig_appends (files : Bytes → Option File) (conf : Option Ini) :
    ∃ r l, ∀ _ : Unit, Appends Tables.nodes (loadConfig files conf : Conf W Unit) r l := by
  unfold loadConfig
  split
  · exact ⟨_, _, fun _ => Appends.pure _⟩
  · rename_i conf
    refine Appends.bind (iniSection_appends conf _) fun proxy => Appends.bind ?_ fun _ => ?_
    · exact Appends.forEach fun k _ => ⟨_, [], fun _ => Appends.modify fun s => (List.append_nil _).symm⟩
    · unfold loadLists
      split
      · refine Appends.bind (insertNodes_appends _) fun _ =>
          Appends.bind (readIpWhitelist_appends files conf) fun found => ?_
        split
        · exact Appends.bind (readCmdWhitelist_appends files conf) fun _ => ⟨_, _, fun _ => Appends.pure _⟩
        · exact ⟨_, _, fun _ => Appends.pure _⟩
      · exact ⟨_, _, fun _ => Appends.pure _⟩

/-! ## Refreshing again -/

section Refresh

variable (net : Net W) (files : Bytes → Option File) (conf : Option Ini) (results : Value)

/-- A refresh in which the configuration is loaded and the first node that answers says `results`. -/
structure Refresh (s s' : Tables W) : Prop where
  loads : (loadConfig files conf s).1 = .ok ()
  answers : ∃ node r, (firstAnswer net (loadConfig files conf s).2.nodes (loadConfig files conf s).2.cluster).1 =
    .ok (some (node, r, results))
  result : s' = (refreshTables net files conf s).2

/-- So many refreshes, one after the other. -/
def Refreshes : Nat → Tables W → Tables W → Prop
  | 0, s, s' => s' = s
  | n + 1, s, s' => ∃ m, Refresh net files conf results s m ∧ Refreshes n m s'

/-- The connections a worker opens and what it logs leave the node list alone. -/
def SameNodes (s s' : St W) : Prop := s'.nodes = s.nodes

instance : Frame (SameNodes : St W → St W → Prop) where
  refl _ := rfl
  trans _ _ _ h₁ h₂ := h₂.trans h₁
  move _ _ _ _ _ := rfl

/-- A refresh appends the nodes of the configuration and of the answer. Both may be empty, but not when
there was no node to ask before. -/
theorem refresh_nodes : ∃ l, ∀ s s', Refresh net files conf results s s' →
    s'.nodes = s.nodes ++ l ∧ (s.nodes = [] → l ≠ []) := by
  obtain ⟨r, l, hload⟩ := loadConfig_appends (W := W) files conf
  obtain ⟨r', l', hupdate⟩ := updateClusterNodes_appends (W := W) results
  refine ⟨l ++ l', fun s s' h => ?_⟩
  obtain ⟨hr, hl⟩ := hload () s
  rcases hs : loadConfig files conf s with ⟨e, t⟩
  have hloads := h.loads
  obtain ⟨node, c, hanswer⟩ := h.answers
  rw [hs] at hloads hanswer hl
  dsimp only at hloads hanswer hl
  subst hloads
  rcases hf : firstAnswer net t.nodes t.cluster with ⟨a, u⟩
  have hu : u.nodes = t.cluster.nodes := by
    have := firstAnswer_frame net (R := SameNodes) t.nodes t.cluster
    rwa [hf] at this
  rw [hf] at hanswer
  dsimp only at hanswer
  subst hanswer
  constructor
  · have hcluster : (clusterNodes net t.cluster).2.nodes = u.nodes ++ l' := by
      unfold clusterNodes
      rw [bind_ok (get_run _), bind_ok (show firstAnswer net t.cluster.nodes t.cluster = _ from hf)]
      dsimp only
      obtain ⟨hr', hl'⟩ := hupdate node u
      rcases hx : updateClusterNodes results node u with ⟨e | _, v⟩
      · rw [bind_error hx]
        rwa [hx] at hl'
      · rw [bind_ok hx]
        rwa [hx] at hl'
    rw [h.result, refreshTables, bind_ok hs]
    show (clusterNodes net t.cluster).2.nodes = _
    rw [hcluster, hu, ← List.append_assoc, ← hl]
    rfl
  · -- an empty list has nobody to answer
    rintro hempty happ
    have ht : t.nodes = [] := by rw [hl, hempty, (List.append_eq_nil_iff.1 happ).1]; rfl
    rw [ht] at hf
    cases hf

theorem refreshes_nodes {l : List Node} (hl : ∀ s s', Refresh net files conf results s s' → s'.nodes = s.nodes ++ l) :
    ∀ (n : Nat) {s s' : Tables W}, Refreshes net files conf results n s s' →
      s'.nodes = s.nodes ++ (List.replicate n l).flatten
  | 0, s, s', h => by
    cases h
    simp
  | n + 1, s, s', ⟨m, hm, h⟩ => by
    rw [refreshes_nodes hl n h, hl s m hm, List.replicate_succ, List.flatten_cons, List.append_assoc]

/-- After any number of refreshes with one configuration and one answer, the node list is what a single
refresh makes of empty tables exactly when it was empty before and there was only one refresh. -/
theorem refreshes_replace_iff (n : Nat) (hn : 1 ≤ n) (s s' t t' : Tables W)
    (hs : Refreshes net files conf results n s s') (ht : Refresh net files conf results t t') (hempty : t.nodes = []) :
    s'.nodes.Perm t'.nodes ↔ s.nodes = [] ∧ n = 1 := by
  obtain ⟨l, hl⟩ := refresh_nodes net files conf results
  have hnodes := refreshes_nodes net files conf results (fun a b hab => (hl a b hab).1) n hs
  obtain ⟨hone, hne⟩ := hl t t' ht
  rw [hempty, List.nil_append] at hone
  rw [hnodes, hone]
  constructor
  · intro hperm
    have hlen := hperm.length_eq
    have hpos : 0 < l.length := List.length_pos_iff.2 (hne hempty)
    simp only [List.length_append, List.length_flatten, List.map_replicate, List.sum_replicate_nat] at hlen
    have hn1 : n = 1 := by
      have : n * l.length ≤ 1 * l.length := by omega
      have := Nat.le_of_mul_le_mul_right this hpos
      omega
    subst hn1
    exact ⟨List.length_eq_zero_iff.1 (by omega), rfl⟩
  · rintro ⟨hnil, rfl⟩
    simp [hnil]

end Refresh

/-! ## A cluster of one node -/

/-- Every node is up and answers `cluster nodes` with the text. -/
def answering (text : Bytes) : Net Unit where
  connect _ _ w := (true, w)
  random _ w := (0, w)
  exchange _ _ _ w := (⟨.reply (Reply.bulk text).bytes closedErr, none⟩, w)

theorem firstAnswer_answering {text : Bytes} (h : text.length ≤ maxStr) (host : Bytes) (rest : List Node)
    (s : St Unit) :
    (firstAnswer (answering text) (⟨host, some (.int 7000)⟩ :: rest) s).1 =
      .ok (some (⟨host, some (.int 7000)⟩, ⟨s.nextConn, host, 7000⟩, .str text)) := by
  obtain ⟨req, hreq⟩ : ∃ req,
      wire (.tab ([bytes "cluster", bytes "nodes"].map .str)) (some typeMultiBulkReply) = .ok req := ⟨_, rfl⟩
  obtain ⟨s', hconnect, hlog⟩ : ∃ s',
      connect (answering text) host (some (.int 7000)) s = (.ok (some ⟨s.nextConn, host, 7000⟩), s') ∧
        s'.log = s.log ++ [.connect ⟨s.nextConn, host, 7000⟩] := ⟨_, rfl, rfl⟩
  have hdecode := decode_bytes (.bulk text) (by simpa [Reply.wf] using h) [] closedErr.text
  have hcmd : ∃ t, doCmd (answering text) .discover ⟨s.nextConn, host, 7000⟩ [bytes "cluster", bytes "nodes"] s' =
      (.ok ⟨.str text, some typeBulkReply, .nil⟩, t) := by
    refine ⟨_, (doCmd_run _ _ hreq (St.isClosed_connect hlog)).trans (Prod.ext ?_ rfl)⟩
    rw [List.append_nil] at hdecode
    show Except.map _ (decode _) = _
    rw [hdecode]
    rfl
  obtain ⟨t, hcmd⟩ := hcmd
  have hask : askNode (answering text) ⟨host, some (.int 7000)⟩ s =
      (.ok (some (⟨s.nextConn, host, 7000⟩, .str text)), t) := by
    unfold askNode
    rw [bind_ok hconnect]
    dsimp only
    rw [bind_ok hcmd]
    rfl
  unfold firstAnswer
  rw [bind_ok hask]
  rfl

/-- A configuration with one node, and files that cannot be opened. -/
def oneNodeIni : Ini := fun name =>
  if name = bytes "proxy" then
    some fun key => if key = bytes "node_list" then some (.str (bytes "10.0.0.1:7000")) else none
  else if name = bytes "ip_whitelist" then some fun _ => some (.str (bytes "ip-whitelist.list"))
  else none

def emptyTables : Tables Unit := ⟨⟨(), fun _ => none, [], 0, []⟩, fun _ => none, fun _ => false, fun _ => false⟩

/-- The answer of the node, by another address. -/
def oneNodeText : Bytes := bytes "07c37dfe 10.0.0.2:7000 myself,master - 0 0 1 connected 0-1\n"

def oneNodeRefresh (s : Tables Unit) : Tables Unit :=
  (refreshTables (answering oneNodeText) (fun _ => none) (some oneNodeIni) s).2

theorem oneNode_refresh (s : Tables Unit) (h : (loadConfig (fun _ => none) (some oneNodeIni) s).2.nodes.head? =
    some ⟨bytes "10.0.0.1", some (.int 7000)⟩) :
    Refresh (answering oneNodeText) (fun _ => none) (some oneNodeIni) (.str oneNodeText) s (oneNodeRefresh s) where
  loads := by rfl
  answers := by
    obtain ⟨rest, hrest⟩ := List.head?_eq_some_iff.1 h
    rw [hrest]
    exact ⟨_, _, firstAnswer_answering (by decide) _ rest _⟩
  result := rfl

theorem refreshes_replace_once :
    (oneNodeRefresh emptyTables).nodes.Perm (oneNodeRefresh emptyTables).nodes ∧ emptyTables.nodes = [] :=
  ⟨(refreshes_replace_iff (answering oneNodeText) (fun _ => none) (some oneNodeIni) (.str oneNodeText) 1 (by decide)
    emptyTables _ emptyTables _ ⟨_, oneNode_refresh emptyTables (by decide +kernel), rfl⟩
    (oneNode_refresh emptyTables (by decide +kernel)) rfl).2 ⟨rfl, rfl⟩, rfl⟩

/-- The second of two refreshes appends both nodes once more. -/
theorem second_refresh_repeats :
    Refreshes (answering oneNodeText) (fun _ => none) (some oneNodeIni) (.str oneNodeText) 2 emptyTables
      (oneNodeRefresh (oneNodeRefresh emptyTables)) ∧
    (oneNodeRefresh emptyTables).nodes =
      [⟨bytes "10.0.0.1", some (.int 7000)⟩, ⟨bytes "10.0.0.2", some (.int 7000)⟩] ∧
    (oneNodeRefresh (oneNodeRefresh emptyTables)).nodes =
      [⟨bytes "10.0.0.1", some (.int 7000)⟩, ⟨bytes "10.0.0.2", some (.int 7000)⟩,
        ⟨bytes "10.0.0.1", some (.int 7000)⟩, ⟨bytes "10.0.0.2", some (.int 7000)⟩] := by
  refine ⟨⟨_, oneNode_refresh emptyTables (by decide +kernel), _, oneNode_refresh _ (by decide +kernel), rfl⟩,
    by decide +kernel, by decide +kernel⟩

end NgProxy.Config
