/-
What the pools of idle connections are for: a shelf for each key, with room for so many connections, where the one that
was put down last is taken first. A shelf is there as long as there is something on it, or something out that was taken
from it. The counts, the free items and the memory of the pools come to just that, as long as a connection that was
taken from a pool is put back under the key it was taken with.
-/
import NgProxy.Tcp.Keepalive

namespace NgProxy.Keepalive

open Lua

/-! ## Shelves -/

structure Shelf where
  size : Nat
  idle : List Item

/-- The sockets know the key their connection was taken with. -/
structure Spec extends Base Bytes where
  shelf : Bytes → Option Shelf

/-- The socket has a connection out that was taken from the shelf of `k`. -/
def Sock.outs (k : Bytes) (t : Sock Bytes) : Bool := t.peer.any Peer.out && decide (t.pool = some k)

namespace Spec

def out (k : Bytes) (a : Spec) : Nat := a.socks.countP (Sock.outs k)

def set (i : Nat) (t : Sock Bytes) (a : Spec) : Spec := { a with toBase := a.toBase.set i t }

def close (c : Nat) (a : Spec) : Spec := { a with toBase := a.toBase.close c }

def setShelf (k : Bytes) (shelf : Option Shelf) (a : Spec) : Spec :=
  { a with shelf := fun k' => if k' = k then shelf else a.shelf k' }

/-- A shelf that is not used any more goes. -/
def tidy (k : Bytes) (a : Spec) : Spec :=
  match a.shelf k with
  | none => a
  | some shelf => if shelf.idle = [] ∧ a.out k = 0 then a.setShelf k none else a

def finalize (i : Nat) (t : Sock Bytes) (u : Peer) (a : Spec) : Spec :=
  let a := a.set i { t with peer := some u.closed }
  match u.connection with
  | none => a
  | some c =>
    let a := a.close c
    if u.reused = 0 then a
    else
      match t.pool with
      | none => a
      | some k => a.tidy k

/-- A connection is taken off the shelf and closed. -/
def expire (k : Bytes) (c : Nat) (a : Spec) : Spec :=
  match a.shelf k with
  | none => a
  | some shelf => ((a.close c).setShelf k (some { shelf with idle := shelf.idle.eraseP (·.conn = c) })).tidy k

def take (i : Nat) (key : Bytes) (error : Option Bytes) (a : Spec) : List Value × Spec :=
  let t := ⟨some key, some Peer.new, none⟩
  match a.shelf key with
  | none =>
    let r := a.toBase.dial i t error
    (r.1, { a with toBase := r.2 })
  | some shelf =>
    match shelf.idle with
    | [] =>
      let r := a.toBase.dial i { t with pool := some key } error
      (r.1, { a with toBase := r.2 })
    | item :: idle =>
      let a := a.setShelf key (some { shelf with idle := idle })
      let u := { Peer.new with connection := some item.conn, reused := item.reused + 1 }
      ([.num (.int 1)], a.set i ⟨some key, some u, some key⟩)

def connect (i : Nat) (host : Bytes) (port : Option Int) (pool error : Option Bytes) (t : Sock Bytes) (a : Spec) :
    List Value × Spec :=
  let (key, r) := prepare host port pool t.key t.peer
  let t := { t with key := key }
  let a := a.set i t
  match r with
  | .error ret => (ret, a)
  | .ok key =>
    match t.peer with
    | none => a.take i key error
    | some u => (a.finalize i t u).take i key error

/-- A connection is put down in front of the others, and what there is no room for is closed. -/
def keep (i : Nat) (key : Bytes) (shelf : Shelf) (t : Sock Bytes) (u : Peer) (c : Nat) (state : Readiness) (a : Spec) :
    List Value × Spec :=
  let idle := ⟨c, u.reused⟩ :: shelf.idle
  let a := (idle.drop shelf.size).foldl (fun a item => a.close item.conn) a
  let a := a.setShelf key (some { shelf with idle := idle.take shelf.size })
  let u := { u with connection := none }
  let t := { t with peer := some u }
  if state = .ready false then ([.nil, .str (bytes "connection in dubious state")], (a.set i t).expire key c)
  else ([.num (.int 1)], a.finalize i t u)

def setkeepalive (i size : Nat) (state : Readiness) (t : Sock Bytes) (a : Spec) : List Value × Spec :=
  match keepable state t.key t.peer with
  | .error ret => (ret, a)
  | .ok (key, u, c) =>
    match a.shelf key with
    | some shelf => a.keep i key shelf t u c state
    | none =>
      if size = 0 then ([.nil, .str (bytes "zero pool size")], a)
      else (a.setShelf key (some ⟨size, []⟩)).keep i key ⟨size, []⟩ t u c state

def closeCall (i : Nat) (t : Sock Bytes) (a : Spec) : List Value × Spec :=
  match connected t.peer with
  | none => (closedResult, a)
  | some u =>
    match u.busy with
    | some text => ([.nil, .str text], a)
    | none => ([.num (.int 1)], a.finalize i t u)

def step (op : Op) (a : Spec) : List Value × Spec :=
  let on (i : Nat) (f : Sock Bytes → List Value × Spec) := (a.socks[i]?).elim ([], a) f
  match op with
  | .tcp => ([], { a with socks := a.socks ++ [⟨none, none, none⟩] })
  | .connect i host port pool error => on i fun t => a.connect i host port pool error t
  | .setkeepalive i size state => on i fun t => a.setkeepalive i size state t
  | .close i => on i fun t => a.closeCall i t
  | .getreusedtimes i => on i fun t => (reusedTimes t.peer, a)
  | .cleanup i => on i fun t => t.peer.elim ([], a) fun u => ([], a.finalize i t u)
  | .wait i conn read write => on i fun t => ([], a.set i { t with peer := t.peer.map (Peer.wait conn read write) })
  | .shut i read write => on i fun t => ([], a.set i { t with peer := t.peer.map (Peer.shut read write) })
  | .event key c stale =>
    match a.shelf key with
    | none => ([], a)
    | some shelf => if stale = false ∧ c ∈ shelf.idle.map Item.conn then ([], a.expire key c) else ([], a)
  | .collect _ => ([], a)

def run : List Op → Spec → List (List Value) × Spec
  | [], a => ([], a)
  | op :: ops, a =>
    let r := a.step op
    let r' := run ops r.2
    (r.1 :: r'.1, r'.2)

def init : Spec := ⟨⟨[], [], 0⟩, fun _ => none⟩

/-- A connection that was taken from a shelf is put back under the key it was taken with, and keys have no byte 0: a pool
that is freed is looked for by its key as a C string. -/
def steady (op : Op) (a : Spec) : Bool :=
  match op with
  | .setkeepalive i _ _ => (a.socks[i]?).all fun t => t.key.all fun key =>
      key.all (· ≠ 0) && (!t.peer.any Peer.out || decide (t.pool = some key))
  | _ => true

def steadyRun : List Op → Spec → Bool
  | [], _ => true
  | op :: ops, a => a.steady op && steadyRun ops (a.step op).2

end Spec

/-! ## How they are kept -/

/-- The same socket. The pool of a connection that is out is that of its key. -/
structure SockRel (registry : Bytes → Option Nat) (s : Sock Nat) (t : Sock Bytes) : Prop where
  key : s.key = t.key
  peer : s.peer = t.peer
  pool : s.peer.any Peer.out = true → ∃ k p, s.pool = some p ∧ t.pool = some k ∧ registry k = some p

/-- The pool is the shelf of its key, and its count is off by `d`. -/
structure Stocks (a : Spec) (k : Bytes) (d : Int) (pool : SocketPool) : Prop where
  key : pool.key = k
  text : 0 ∉ k
  room : 0 < pool.cache.length + pool.free
  shelf : a.shelf k = some ⟨pool.cache.length + pool.free, pool.cache⟩
  active : pool.activeConnections = pool.cache.length + a.out k + d

/-- The worker keeps the shelves; the counts of its pools are off by `σ`. -/
structure Keeps (σ : Bytes → Int) (w : Worker) (a : Spec) : Prop where
  opened : w.opened = a.opened
  next : w.next = a.next
  length : w.socks.length = a.socks.length
  socks : ∀ {i : Nat} {s t}, w.socks[i]? = some s → a.socks[i]? = some t → SockRel w.registry s t
  absent : ∀ {k}, w.registry k = none → a.shelf k = none
  pools : ∀ {k p}, w.registry k = some p → ∃ pool, w.pool? p = some pool ∧ Stocks a k (σ k) pool
  garbage : ∀ {p pool}, w.pool? p = some pool → w.registry pool.key ≠ some p → pool.cache = []

section Changes

variable {σ : Bytes → Int} {w : Worker} {a : Spec} {i p c : Nat} {s : Sock Nat} {t : Sock Bytes} {k : Bytes}
  {pool : SocketPool}

/-- One socket more or less that has something out. -/
theorem out_set (ht : a.socks[i]? = some t) (t' : Sock Bytes) (k : Bytes) :
    ((a.set i t').out k : Int) + (t.outs k).toNat = a.out k + (t'.outs k).toNat := by
  obtain ⟨hi, rfl⟩ := List.getElem?_eq_some_iff.1 ht
  have hset : (a.set i t').out k = a.out k - (if (a.socks[i]).outs k then 1 else 0) + (if t'.outs k then 1 else 0) :=
    List.countP_set hi
  cases hold : (a.socks[i]).outs k with
  | false =>
    rw [hset, hold]
    cases t'.outs k <;> simp
  | true =>
    have hpos : 0 < a.out k := List.countP_pos_iff.2 ⟨_, List.getElem_mem hi, hold⟩
    rw [hset, hold]
    cases t'.outs k <;> simp <;> omega

theorem Keeps.sock (h : Keeps σ w a) (hs : w.socks[i]? = some s) :
    ∃ t, a.socks[i]? = some t ∧ SockRel w.registry s t := by
  cases ht : a.socks[i]? with
  | none =>
    obtain ⟨hi, -⟩ := List.getElem?_eq_some_iff.1 hs
    have := List.getElem?_eq_none_iff.1 ht
    have := h.length
    omega
  | some t => exact ⟨t, rfl, h.socks hs ht⟩

theorem Keeps.sock' (h : Keeps σ w a) (ht : a.socks[i]? = some t) : ∃ s, w.socks[i]? = some s := by
  obtain ⟨hi, -⟩ := List.getElem?_eq_some_iff.1 ht
  exact ⟨w.socks.get ⟨i, h.length ▸ hi⟩, List.getElem?_eq_getElem _⟩

/-- No pool, no connection that was taken from it. -/
theorem Keeps.out_absent (h : Keeps σ w a) (hk : w.registry k = none) : a.out k = 0 := by
  refine List.countP_eq_zero.2 fun t hmem hout => ?_
  obtain ⟨i, ht⟩ := List.mem_iff_getElem?.1 hmem
  obtain ⟨s, hs⟩ := h.sock' ht
  have hrel := h.socks hs ht
  simp only [Sock.outs, Bool.and_eq_true, decide_eq_true_eq] at hout
  obtain ⟨k', p, -, hk', hreg⟩ := hrel.pool (hrel.peer ▸ hout.1)
  rw [hout.2] at hk'
  cases hk'
  rw [hk] at hreg
  cases hreg

theorem Keeps.set (h : Keeps σ w a) (hs : w.socks[i]? = some s) (ht : a.socks[i]? = some t) (s' : Sock Nat)
    (t' : Sock Bytes) (hrel : SockRel w.registry s' t') :
    Keeps (fun k => σ k + (t.outs k).toNat - (t'.outs k).toNat) (w.set i s') (a.set i t') := by
  refine ⟨h.opened, h.next, ?_, ?_, h.absent, ?_, h.garbage⟩
  · simpa [Worker.set, Spec.set, Base.set] using h.length
  · intro j x y hx hy
    simp only [Worker.set, Spec.set, Base.set, List.getElem?_set] at hx hy
    by_cases hij : i = j
    · subst hij
      obtain ⟨hi, -⟩ := List.getElem?_eq_some_iff.1 hs
      obtain ⟨hi', -⟩ := List.getElem?_eq_some_iff.1 ht
      simp only [hi, hi', if_true] at hx hy
      cases hx
      cases hy
      exact hrel
    · rw [if_neg hij] at hx hy
      exact h.socks hx hy
  · intro k p hk
    obtain ⟨pool, hpool, hst⟩ := h.pools hk
    refine ⟨pool, hpool, ⟨hst.key, hst.text, hst.room, hst.shelf, ?_⟩⟩
    have := out_set ht t' k
    rw [hst.active]
    omega

/-- The connections that are open do not matter. -/
theorem Keeps.renew (h : Keeps σ w a) (opened : List Nat) (next : Nat) :
    Keeps σ ⟨⟨w.socks, opened, next⟩, w.registry, w.heap⟩ ⟨⟨a.socks, opened, next⟩, a.shelf⟩ := by
  refine ⟨rfl, rfl, h.length, h.socks, h.absent, fun hk => ?_, h.garbage⟩
  obtain ⟨pool, hpool, hst⟩ := h.pools hk
  exact ⟨pool, hpool, ⟨hst.key, hst.text, hst.room, hst.shelf, hst.active⟩⟩

theorem Keeps.close (h : Keeps σ w a) (c : Nat) : Keeps σ (w.close c) (a.close c) := by
  have hclose := h.renew (a.opened.erase c) a.next
  rw [Worker.close, Base.close, h.opened, h.next]
  exact hclose

theorem pool_setPool (hp : w.pool? p = some pool) (pool' : SocketPool) (q : Nat) :
    (w.setPool p pool').pool? q = if p = q then some pool' else w.pool? q := by
  have hlt : p < w.heap.length := by
    by_contra hle
    rw [Worker.pool?, List.getElem?_eq_none (by omega)] at hp
    cases hp
  simp only [Worker.pool?, Worker.setPool, List.getElem?_set, if_pos hlt]
  split
  · rfl
  · rfl

/-- The pool of `k` is changed, and so is its shelf. -/
theorem Keeps.setPool (h : Keeps σ w a) (hk : w.registry k = some p) (hp : w.pool? p = some pool) (pool' : SocketPool)
    (hkey : pool'.key = pool.key) (hroom : 0 < pool'.cache.length + pool'.free) :
    Keeps (fun k' => if k' = k then pool'.activeConnections - pool'.cache.length - a.out k else σ k')
      (w.setPool p pool') (a.setShelf k (some ⟨pool'.cache.length + pool'.free, pool'.cache⟩)) := by
  obtain ⟨pool₀, hpool₀, hst⟩ := h.pools hk
  obtain rfl : pool₀ = pool := Option.some.inj (hpool₀.symm.trans hp)
  refine ⟨h.opened, h.next, h.length, h.socks, ?_, ?_, ?_⟩
  · intro k' hk'
    have hne : k' ≠ k := by
      rintro rfl
      exact Option.some_ne_none _ (hk.symm.trans hk')
    exact (if_neg hne).trans (h.absent hk')
  · intro k' p' hk'
    rw [pool_setPool hp]
    by_cases hkk : k' = k
    · subst hkk
      obtain rfl : p = p' := Option.some.inj (hk.symm.trans hk')
      refine ⟨pool', if_pos rfl, ⟨hkey.trans hst.key, hst.text, hroom, if_pos rfl, ?_⟩⟩
      rw [if_pos rfl]
      show _ = _ + (a.out k' : Int) + _
      omega
    · obtain ⟨pool₁, hpool₁, hst₁⟩ := h.pools hk'
      have hpp : p ≠ p' := by
        rintro rfl
        rw [hp] at hpool₁
        cases hpool₁
        exact hkk (hst₁.key.symm.trans hst.key)
      rw [if_neg hkk]
      exact ⟨pool₁, (if_neg hpp).trans hpool₁,
        ⟨hst₁.key, hst₁.text, hst₁.room, (if_neg hkk).trans hst₁.shelf, hst₁.active⟩⟩
  · intro q pool₁ hq hne
    rw [pool_setPool hp] at hq
    split at hq
    · rename_i hpq
      cases hq
      refine absurd ?_ hne
      rw [hkey, hst.key, ← hpq]
      exact hk
    · exact h.garbage hq hne

theorem Keeps.congr {τ : Bytes → Int} (h : Keeps σ w a) (hσ : ∀ k, σ k = τ k) : Keeps τ w a := by
  obtain rfl : σ = τ := funext hσ
  exact h

theorem setShelf_self {shelf : Option Shelf} (h : a.shelf k = shelf) : a.setShelf k shelf = a := by
  have hshelf : (fun k' => if k' = k then shelf else a.shelf k') = a.shelf := by
    funext k'
    split
    · rename_i hk
      rw [hk, h]
    · rfl
  rw [Spec.setShelf, hshelf]

/-- The worker keeps the shelves, and its counts are right. -/
abbrev Rel (w : Worker) (a : Spec) : Prop := Keeps (fun _ => 0) w a

/-- A pool whose count is 0 has nothing idle and nothing out. -/
theorem Keeps.unused (h : Rel w a) (hk : w.registry k = some p) (hp : w.pool? p = some pool) :
    pool.activeConnections = 0 ↔ pool.cache = [] ∧ a.out k = 0 := by
  obtain ⟨pool₀, hpool₀, hst⟩ := h.pools hk
  obtain rfl : pool₀ = pool := Option.some.inj (hpool₀.symm.trans hp)
  rw [hst.active, ← List.length_eq_zero_iff]
  omega

theorem Keeps.freePool (h : Rel w a) (hk : w.registry k = some p) (hp : w.pool? p = some pool)
    (hzero : pool.activeConnections = 0) : Rel (w.freePool pool) (a.setShelf k none) := by
  obtain ⟨hcache, hout⟩ := (h.unused hk hp).1 hzero
  obtain ⟨pool₀, hpool₀, hst⟩ := h.pools hk
  obtain rfl : pool₀ = pool := Option.some.inj (hpool₀.symm.trans hp)
  have htext : pool₀.key.takeWhile (· ≠ 0) = k := by
    rw [hst.key]
    refine List.takeWhile_eq_self_iff.2 fun b hb => decide_eq_true ?_
    rintro rfl
    exact hst.text hb
  have hreg : ∀ k', (w.freePool pool₀).registry k' = if k' = k then none else w.registry k' := fun k' => by
    rw [Worker.freePool, htext]
  refine ⟨h.opened, h.next, h.length, ?_, ?_, ?_, ?_⟩
  · intro i s t hs ht
    have hrel := h.socks hs ht
    refine ⟨hrel.key, hrel.peer, fun ho => ?_⟩
    obtain ⟨k', p', hsp, htp, hreg'⟩ := hrel.pool ho
    -- nothing is out that was taken from this pool
    have hne : k' ≠ k := by
      rintro rfl
      refine absurd (List.countP_eq_zero.1 hout t (List.mem_of_getElem? ht)) (not_not.2 ?_)
      rw [Sock.outs, ← hrel.peer, ho, htp]
      simp
    exact ⟨k', p', hsp, htp, by rw [hreg, if_neg hne, hreg']⟩
  · intro k' hk'
    rw [hreg] at hk'
    by_cases hkk : k' = k
    · exact if_pos hkk
    · rw [if_neg hkk] at hk'
      exact (if_neg hkk).trans (h.absent hk')
  · intro k' p' hk'
    rw [hreg] at hk'
    by_cases hkk : k' = k
    · rw [if_pos hkk] at hk'
      cases hk'
    · rw [if_neg hkk] at hk'
      obtain ⟨pool₁, hpool₁, hst₁⟩ := h.pools hk'
      exact ⟨pool₁, hpool₁, ⟨hst₁.key, hst₁.text, hst₁.room, (if_neg hkk).trans hst₁.shelf, hst₁.active⟩⟩
  · intro q pool₁ hq hne
    by_cases hqp : q = p
    · subst hqp
      obtain rfl : pool₁ = pool₀ := Option.some.inj (Eq.trans (Eq.symm hq) hp)
      exact hcache
    · refine h.garbage hq fun hold => ?_
      rw [hreg] at hne
      by_cases hkk : pool₁.key = k
      · rw [hkk, hk] at hold
        exact hqp (Option.some.inj hold).symm
      · rw [if_neg hkk] at hne
        exact hne hold

/-- A connection has left the shelf of `k`, and its pool counts it still. -/
theorem Keeps.leave (h : Keeps σ w a) (hk : w.registry k = some p) (hσ : ∀ k', σ k' = if k' = k then 1 else 0) :
    ∃ w', w.leave p = some w' ∧ Rel w' (a.tidy k) := by
  obtain ⟨pool, hpool, hst⟩ := h.pools hk
  have hset := h.setPool hk hpool { pool with activeConnections := pool.activeConnections - 1 } rfl hst.room
  rw [setShelf_self hst.shelf] at hset
  have hactive := hst.active
  rw [hσ, if_pos rfl] at hactive
  have hrel : Rel (w.setPool p { pool with activeConnections := pool.activeConnections - 1 }) a := by
    refine hset.congr fun k' => ?_
    split
    · dsimp only
      omega
    · rename_i hne
      rw [hσ, if_neg hne]
  have hpool' : (w.setPool p { pool with activeConnections := pool.activeConnections - 1 }).pool? p =
      some { pool with activeConnections := pool.activeConnections - 1 } := (pool_setPool hpool _ p).trans (if_pos rfl)
  have hunused := hrel.unused hk hpool'
  rw [Worker.leave, hpool, Spec.tidy, hst.shelf]
  dsimp only at hunused ⊢
  refine ⟨_, rfl, ?_⟩
  by_cases hzero : pool.activeConnections - 1 = 0
  · rw [if_pos hzero, if_pos (hunused.1 hzero)]
    exact hrel.freePool hk hpool' hzero
  · rw [if_neg hzero, if_neg fun h => hzero (hunused.2 h)]
    exact hrel

end Changes

section Calls

variable {w : Worker} {a : Spec} {i p c : Nat} {s : Sock Nat} {t : Sock Bytes} {k : Bytes} {u : Peer}

theorem outs_of_idle {t : Sock Bytes} (h : t.peer.any Peer.out = false) (k : Bytes) : t.outs k = false := by
  rw [Sock.outs, h, Bool.false_and]

/-- A socket changes that has nothing out, before or after. -/
theorem Keeps.setIdle (h : Rel w a) (hs : w.socks[i]? = some s) (ht : a.socks[i]? = some t) (s' : Sock Nat)
    (t' : Sock Bytes) (hkey : s'.key = t'.key) (hpeer : s'.peer = t'.peer) (hidle' : t'.peer.any Peer.out = false)
    (hidle : t.peer.any Peer.out = false) : Rel (w.set i s') (a.set i t') := by
  refine (h.set hs ht s' t' ⟨hkey, hpeer, fun ho => ?_⟩).congr fun k => ?_
  · rw [hpeer, hidle'] at ho
    cases ho
  · rw [outs_of_idle hidle, outs_of_idle hidle']
    rfl

theorem closed_idle (u : Peer) : (some u.closed).any Peer.out = false := rfl

theorem Keeps.finalize (h : Rel w a) (hs : w.socks[i]? = some s) (ht : a.socks[i]? = some t) (hu : t.peer = some u) :
    ∃ w', w.finalize i s u = some w' ∧ Rel w' (a.finalize i t u) := by
  have hrel := h.socks hs ht
  have hidle' : t.peer.any Peer.out = false →
      Rel (w.set i { s with peer := some u.closed }) (a.set i { t with peer := some u.closed }) :=
    h.setIdle hs ht _ _ hrel.key rfl (closed_idle u)
  rw [Worker.finalize, Spec.finalize]
  dsimp only
  cases hc : u.connection with
  | none => exact ⟨_, rfl, hidle' (by simp [hu, Peer.out, hc])⟩
  | some c =>
    dsimp only
    by_cases hzero : u.reused = 0
    · rw [if_pos hzero, if_pos hzero]
      exact ⟨_, rfl, (hidle' (by simp [hu, Peer.out, hzero])).close c⟩
    · rw [if_neg hzero, if_neg hzero]
      have hout : t.peer.any Peer.out = true := by simp [hu, Peer.out, hc, hzero]
      obtain ⟨k, p, hsp, htp, hreg⟩ := hrel.pool (hrel.peer ▸ hout)
      have hset := (h.set hs ht { s with peer := some u.closed } { t with peer := some u.closed }
        ⟨hrel.key, rfl, fun ho => absurd ho Bool.false_ne_true⟩).close c
      rw [hsp, htp] at hset ⊢
      refine hset.leave hreg fun k' => ?_
      have hnew : Sock.outs k' ⟨t.key, some u.closed, some k⟩ = false := outs_of_idle (closed_idle u) k'
      rw [hnew, Sock.outs, hout, htp]
      by_cases hk : k' = k
      · simp [hk]
      · simp [hk, Ne.symm hk]

theorem finalize_socks (i : Nat) (t : Sock Bytes) (u : Peer) (a : Spec) :
    (a.finalize i t u).socks = a.socks.set i { t with peer := some u.closed } := by
  have htidy : ∀ (k : Bytes) (a : Spec), (a.tidy k).socks = a.socks := fun k a => by
    rw [Spec.tidy]
    split
    · rfl
    · split <;> rfl
  rw [Spec.finalize]
  dsimp only
  split
  · rfl
  · split
    · rfl
    · split
      · rfl
      · exact htidy _ _

theorem Keeps.expire (h : Rel w a) (hk : w.registry k = some p)
    (hc : ∃ pool, w.pool? p = some pool ∧ c ∈ pool.cache.map Item.conn) :
    ∃ w', w.closeHandler p c = some w' ∧ Rel w' (a.expire k c) := by
  obtain ⟨pool, hpool, hst⟩ := h.pools hk
  obtain ⟨pool₀, hpool₀, hmem⟩ := hc
  obtain rfl : pool₀ = pool := Option.some.inj (hpool₀.symm.trans hpool)
  obtain ⟨item, hitem, rfl⟩ := List.mem_map.1 hmem
  have hlen : (pool₀.cache.eraseP (·.conn = item.conn)).length = pool₀.cache.length - 1 :=
    List.length_eraseP_of_mem hitem (by simp)
  have hpos : 0 < pool₀.cache.length := List.length_pos_of_mem hitem
  have hset := (h.close item.conn).setPool hk hpool
    { pool₀ with cache := pool₀.cache.eraseP (·.conn = item.conn), free := pool₀.free + 1 } rfl
    (by dsimp only; omega)
  rw [Worker.closeHandler, hpool, Spec.expire, hst.shelf]
  have hsize : pool₀.cache.length - 1 + (pool₀.free + 1) = pool₀.cache.length + pool₀.free := by omega
  dsimp only at hset ⊢
  rw [hlen, hsize] at hset
  refine hset.leave hk fun k' => ?_
  split
  · have := hst.active
    have hout : (a.close item.conn).out k = a.out k := rfl
    rw [hout, this]
    omega
  · rfl

theorem Keeps.dial (h : Rel w a) (hs : w.socks[i]? = some s) (ht : a.socks[i]? = some t)
    (hidle : t.peer.any Peer.out = false) (error key : Option Bytes) (q : Option Nat) (k : Option Bytes) :
    ∃ w', (w.toBase.dial i ⟨key, some Peer.new, q⟩ error).2 = w' ∧
      (w.toBase.dial i ⟨key, some Peer.new, q⟩ error).1 = (a.toBase.dial i ⟨key, some Peer.new, k⟩ error).1 ∧
      Rel { w with toBase := w' } { a with toBase := (a.toBase.dial i ⟨key, some Peer.new, k⟩ error).2 } := by
  refine ⟨_, rfl, ?_⟩
  cases error with
  | some text => exact ⟨rfl, h.setIdle hs ht _ _ rfl rfl rfl hidle⟩
  | none =>
    have hset := (h.setIdle hs ht ⟨key, some { Peer.new with connection := some a.next }, q⟩
      ⟨key, some { Peer.new with connection := some a.next }, k⟩ rfl rfl rfl hidle).renew
        (a.next :: a.opened) (a.next + 1)
    refine ⟨rfl, ?_⟩
    rw [Base.dial]
    dsimp only
    rw [h.next, h.opened]
    exact hset

theorem Keeps.take (h : Rel w a) (ht : a.socks[i]? = some t) (hidle : t.peer.any Peer.out = false) (key : Bytes)
    (error : Option Bytes) :
    ∃ w', w.getKeepalivePeer i key error = some ((a.take i key error).1, w') ∧ Rel w' (a.take i key error).2 := by
  obtain ⟨s, hs⟩ := h.sock' ht
  rw [Worker.getKeepalivePeer, Spec.take]
  cases hreg : w.registry key with
  | none =>
    rw [h.absent hreg]
    obtain ⟨w', hw', hret, hrel⟩ := h.dial hs ht hidle error (some key) none none
    dsimp only
    rw [hret, hw']
    exact ⟨_, rfl, hrel⟩
  | some p =>
    obtain ⟨pool, hpool, hst⟩ := h.pools hreg
    rw [hst.shelf]
    dsimp only
    rw [hpool]
    dsimp only
    cases hcache : pool.cache with
    | nil =>
      obtain ⟨w', hw', hret, hrel⟩ := h.dial hs ht hidle error (some key) (some p) (some key)
      dsimp only
      rw [hret, hw']
      exact ⟨_, rfl, hrel⟩
    | cons item cache =>
      refine ⟨_, rfl, ?_⟩
      have hset := h.setPool hreg hpool { pool with cache := cache, free := pool.free + 1 } rfl
        (by dsimp only; omega)
      have hactive := hst.active
      rw [hcache, List.length_cons] at hactive
      have hsize : cache.length + (pool.free + 1) = cache.length + 1 + pool.free := by omega
      dsimp only at hset ⊢
      rw [hsize] at hset
      rw [List.length_cons]
      refine (hset.set hs ht _ _ ⟨rfl, rfl, fun _ => ⟨key, p, rfl, rfl, hreg⟩⟩).congr fun k => ?_
      rw [outs_of_idle hidle, hactive]
      by_cases hk : k = key
      · simp [hk, Sock.outs, Peer.out]
        omega
      · simp [hk, Ne.symm hk, Sock.outs]

/-- A socket changes, but not what it has out. -/
theorem Keeps.setSame (h : Rel w a) (hs : w.socks[i]? = some s) (ht : a.socks[i]? = some t) (key : Option Bytes)
    (peer : Option Peer) (hout : peer.any Peer.out = t.peer.any Peer.out) :
    Rel (w.set i ⟨key, peer, s.pool⟩) (a.set i ⟨key, peer, t.pool⟩) := by
  have hrel := h.socks hs ht
  refine (h.set hs ht ⟨key, peer, s.pool⟩ ⟨key, peer, t.pool⟩ ⟨rfl, rfl, fun ho => hrel.pool ?_⟩).congr fun k => ?_
  · rw [hrel.peer, ← hout]
    exact ho
  · have hsame : Sock.outs k ⟨key, peer, t.pool⟩ = t.outs k := by
      rw [Sock.outs, Sock.outs, hout]
    rw [hsame]
    omega

theorem set_socks (ht : a.socks[i]? = some t) (t' : Sock Bytes) : (a.set i t').socks[i]? = some t' := by
  obtain ⟨hi, -⟩ := List.getElem?_eq_some_iff.1 ht
  exact List.getElem?_set_self hi

theorem Keeps.connect (h : Rel w a) (hs : w.socks[i]? = some s) (ht : a.socks[i]? = some t) (host : Bytes)
    (port : Option Int) (pool error : Option Bytes) :
    ∃ w', w.connect i host port pool error s = some ((a.connect i host port pool error t).1, w') ∧
      Rel w' (a.connect i host port pool error t).2 := by
  have hrel := h.socks hs ht
  rw [Worker.connect, Spec.connect, hrel.key, hrel.peer]
  generalize prepare host port pool t.key t.peer = r
  obtain ⟨key, r⟩ := r
  have hset := h.setSame hs ht key t.peer rfl
  have ht' := set_socks ht ⟨key, t.peer, t.pool⟩
  obtain ⟨s', hs'⟩ := hset.sock' ht'
  cases r with
  | error ret => exact ⟨_, rfl, hset⟩
  | ok name =>
    dsimp only
    cases hu : t.peer with
    | none =>
      rw [hu] at hset ht'
      exact hset.take ht' rfl name error
    | some u =>
      rw [hu] at hset ht'
      obtain ⟨hi, -⟩ := List.getElem?_eq_some_iff.1 hs
      have hs'' : (w.set i ⟨key, some u, s.pool⟩).socks[i]? = some ⟨key, some u, s.pool⟩ := List.getElem?_set_self hi
      obtain ⟨w₁, hw₁, hrel₁⟩ := hset.finalize hs'' ht' rfl
      have ht₁ : (Spec.finalize i ⟨key, some u, t.pool⟩ u (a.set i ⟨key, some u, t.pool⟩)).socks[i]? =
          some ⟨key, some u.closed, t.pool⟩ := by
        rw [finalize_socks]
        exact set_socks ht' _
      dsimp only
      rw [hw₁]
      exact hrel₁.take ht₁ (closed_idle u) name error

/-- The shelf of a new pool. -/
theorem Keeps.createPool {key : Bytes} {size : Nat} (h : Rel w a) (hreg : w.registry key = none) (htext : 0 ∉ key)
    (hsize : size ≠ 0) : Rel (w.createPool key size) (a.setShelf key (some ⟨size, []⟩)) := by
  have hold : ∀ {p : Nat} {pool : SocketPool}, w.pool? p = some pool → p < w.heap.length := fun {p pool} hp => by
    by_contra hle
    rw [Worker.pool?, List.getElem?_eq_none (by omega)] at hp
    cases hp
  have hheap : ∀ p, (w.createPool key size).pool? p =
      if p = w.heap.length then some ⟨key, 0, [], size⟩ else w.pool? p := fun p => by
    simp only [Worker.pool?, Worker.createPool]
    by_cases hlt : p < w.heap.length
    · rw [List.getElem?_append_left hlt, if_neg (by omega)]
    · rw [List.getElem?_append_right (by omega)]
      by_cases heq : p = w.heap.length
      · simp [heq]
      · rw [if_neg heq, List.getElem?_eq_none (by simp; omega), List.getElem?_eq_none (by omega)]
  refine ⟨h.opened, h.next, h.length, ?_, ?_, ?_, ?_⟩
  · intro i s t hs ht
    have hrel := h.socks hs ht
    refine ⟨hrel.key, hrel.peer, fun ho => ?_⟩
    obtain ⟨k, p, hsp, htp, hk⟩ := hrel.pool ho
    have hne : k ≠ key := by
      rintro rfl
      exact Option.some_ne_none _ (hk.symm.trans hreg)
    exact ⟨k, p, hsp, htp, (if_neg hne).trans hk⟩
  · intro k hk
    by_cases hkk : k = key
    · exact absurd ((if_pos hkk).symm.trans hk) (Option.some_ne_none _)
    · exact (if_neg hkk).trans (h.absent ((if_neg hkk).symm.trans hk))
  · intro k p hk
    rw [hheap]
    by_cases hkk : k = key
    · subst hkk
      obtain rfl : w.heap.length = p := Option.some.inj ((if_pos rfl).symm.trans hk)
      refine ⟨_, if_pos rfl, ⟨rfl, htext, by simp; omega, (if_pos rfl).trans (by simp), ?_⟩⟩
      have hout : (a.setShelf k (some ⟨size, []⟩)).out k = 0 := h.out_absent hreg
      rw [hout]
      rfl
    · obtain ⟨pool, hpool, hst⟩ := h.pools ((if_neg hkk).symm.trans hk)
      have hlt := hold hpool
      exact ⟨pool, (if_neg (by omega)).trans hpool,
        ⟨hst.key, hst.text, hst.room, (if_neg hkk).trans hst.shelf, hst.active⟩⟩
  · intro p pool hp hne
    rw [hheap] at hp
    split at hp
    · cases hp
      rfl
    · refine h.garbage hp fun hk => hne ?_
      have hkk : pool.key ≠ key := by
        rintro hkey
        rw [hkey, hreg] at hk
        cases hk
      exact (if_neg hkk).trans hk

/-- What `makeRoom` does: the connection there is no room for is closed, and the count goes with it. -/
theorem Keeps.makeRoom {pool : SocketPool} (h : Rel w a) (hroom : 0 < pool.cache.length + pool.free) (item : Item) :
    ∃ pool' w', w.makeRoom pool = some (pool', w') ∧
      Rel w' (((item :: pool.cache).drop (pool.cache.length + pool.free)).foldl (fun a item => a.close item.conn) a) ∧
      w'.registry = w.registry ∧ w'.heap = w.heap ∧ w'.socks = w.socks ∧ pool'.key = pool.key ∧
      item :: pool'.cache = (item :: pool.cache).take (pool.cache.length + pool.free) ∧
      pool'.cache.length + 1 + pool'.free = pool.cache.length + pool.free ∧
      pool'.activeConnections - pool'.cache.length = pool.activeConnections - pool.cache.length := by
  rw [Worker.makeRoom]
  by_cases hfree : pool.free = 0
  · have hne : pool.cache ≠ [] := List.ne_nil_of_length_pos (by omega)
    have hpos := List.length_pos_iff.2 hne
    obtain ⟨n, hn⟩ : ∃ n, pool.cache.length = n + 1 := ⟨pool.cache.length - 1, by omega⟩
    rw [if_pos hfree, List.getLast?_eq_getLast_of_ne_nil hne, hfree, Nat.add_zero, List.drop_length_cons hne]
    refine ⟨_, _, rfl, h.close _, rfl, rfl, rfl, rfl, ?_, ?_, ?_⟩
    · rw [hn, List.take_succ_cons, List.dropLast_eq_take, hn]
      rfl
    · rw [List.length_dropLast]
      dsimp only
      omega
    · rw [List.length_dropLast]
      dsimp only
      omega
  · rw [if_neg hfree, List.drop_eq_nil_of_le (by rw [List.length_cons]; omega)]
    refine ⟨_, _, rfl, h, rfl, rfl, rfl, rfl, ?_, ?_, rfl⟩
    · rw [List.take_of_length_le (by rw [List.length_cons]; omega)]
    · dsimp only
      omega

theorem keepable_ok {state : Readiness} {key : Option Bytes} {peer : Option Peer}
    (h : keepable state key peer = .ok (k, u, c)) :
    key = some k ∧ peer = some u ∧ u.connection = some c := by
  unfold keepable at h
  split at h
  · cases h
  · cases h
  · split at h
    · cases h
    · rename_i hc
      split at h
      · cases h
      · split at h
        · cases h
        · cases h
        · cases h
        · cases h
        · cases h
          exact ⟨rfl, rfl, hc⟩

theorem closeAll_frame (items : List Item) (a : Spec) :
    (items.foldl (fun a item => a.close item.conn) a).socks = a.socks ∧
      (items.foldl (fun a item => a.close item.conn) a).shelf = a.shelf := by
  induction items generalizing a with
  | nil => exact ⟨rfl, rfl⟩
  | cons item items ih => exact ih (a.close item.conn)

theorem Keeps.keep {shelf : Shelf} (h : Rel w a) (hs : w.socks[i]? = some s) (ht : a.socks[i]? = some t)
    (hu : t.peer = some u) (hc : u.connection = some c) (hreg : w.registry k = some p) (hshelf : a.shelf k = some shelf)
    (hsteady : t.peer.any Peer.out = true → t.pool = some k) (state : Readiness) :
    ∃ w', w.keep i p s u c state = some ((a.keep i k shelf t u c state).1, w') ∧
      Rel w' (a.keep i k shelf t u c state).2 := by
  have hrel := h.socks hs ht
  obtain ⟨pool, hpool, hst⟩ := h.pools hreg
  obtain rfl := Option.some.inj (hshelf.symm.trans hst.shelf)
  obtain ⟨pool', w₁, hroom, hrel₁, hreg₁, hheap₁, hsocks₁, hkey, hcache, hsize, hactive⟩ :=
    h.makeRoom hst.room ⟨c, u.reused⟩
  rw [Worker.keep, hpool]
  dsimp only
  rw [hroom, Spec.keep]
  dsimp only
  obtain ⟨hsocksA, hshelfA⟩ := closeAll_frame
    ((⟨c, u.reused⟩ :: pool.cache).drop (pool.cache.length + pool.free)) a
  generalize ((⟨c, u.reused⟩ :: pool.cache).drop (pool.cache.length + pool.free)).foldl _ a = a₁
    at hrel₁ hsocksA hshelfA ⊢
  have hout₁ : a₁.out k = a.out k := by rw [Spec.out, hsocksA]; rfl
  have hset := hrel₁.setPool (k := k) (p := p) (by rw [hreg₁, hreg]) (by rw [Worker.pool?, hheap₁]; exact hpool)
    { pool' with
      cache := ⟨c, u.reused⟩ :: pool'.cache
      activeConnections := if u.reused = 0 then pool'.activeConnections + 1 else pool'.activeConnections }
    hkey (Nat.add_pos_left (Nat.succ_pos _) _)
  have hlen : (⟨c, u.reused⟩ :: pool'.cache : List Item).length + pool'.free = pool.cache.length + pool.free := by
    rw [List.length_cons]
    exact hsize
  dsimp only at hset
  rw [hlen, hout₁] at hset
  have hcount : ∀ k', (if k' = k then (if u.reused = 0 then pool'.activeConnections + 1 else pool'.activeConnections) -
      ((⟨c, u.reused⟩ :: pool'.cache : List Item).length : Int) - a.out k else 0) + (t.outs k').toNat = 0 := by
    intro k'
    have hcounted := hst.active
    have hout : t.peer.any Peer.out = (u.reused != 0) := by simp [hu, Peer.out, hc]
    rw [List.length_cons, Sock.outs]
    by_cases hzero : u.reused = 0
    · rw [hout, hzero]
      simp only [bne_self_eq_false, Bool.false_and, if_true, Bool.toNat_false]
      split <;> omega
    · have hyes : t.peer.any Peer.out = true := by simp [hout, hzero]
      rw [hyes, hsteady hyes, if_neg hzero]
      by_cases hk : k' = k
      · simp [hk]
        omega
      · simp [hk, Ne.symm hk]
  -- the connection is not the socket's any more
  have hdone : ∀ u' : Peer, u'.out = false →
      Rel ((w₁.setPool p { pool' with
          cache := ⟨c, u.reused⟩ :: pool'.cache
          activeConnections := if u.reused = 0 then pool'.activeConnections + 1 else pool'.activeConnections }).set i
          { s with peer := some u' })
        ((a₁.setShelf k (some ⟨pool.cache.length + pool.free, ⟨c, u.reused⟩ :: pool'.cache⟩)).set i
          { t with peer := some u' }) := by
    intro u' hidle
    refine (hset.set (s := s) (t := t) (by rw [← hs, ← hsocks₁]; rfl) (by rw [← ht, ← hsocksA]; rfl)
      { s with peer := some u' } { t with peer := some u' }
      ⟨hrel.key, rfl, fun ho => absurd (hidle.symm.trans ho) Bool.false_ne_true⟩).congr fun k' => ?_
    have hnew : Sock.outs k' { t with peer := some u' } = false :=
      outs_of_idle (show (some u').any Peer.out = false from hidle) k'
    rw [hnew, hcount]
    rfl
  rw [← hcache]
  by_cases hready : state = .ready false
  · rw [if_pos hready, if_pos hready]
    obtain ⟨w', hw', hrel'⟩ := (hdone { u with connection := none } rfl).expire (c := c) (k := k) (p := p)
      (by rw [← hreg, ← hreg₁]; rfl)
      ⟨_, (pool_setPool (by rw [Worker.pool?, hheap₁]; exact hpool) _ p).trans (if_pos rfl), List.mem_cons_self⟩
    rw [hw']
    exact ⟨w', rfl, hrel'⟩
  · rw [if_neg hready, if_neg hready]
    exact ⟨_, rfl, hdone _ rfl⟩

theorem Keeps.setkeepalive (h : Rel w a) (hs : w.socks[i]? = some s) (ht : a.socks[i]? = some t) (size : Nat)
    (state : Readiness) (hsteady : a.steady (.setkeepalive i size state) = true) :
    ∃ w', w.setkeepalive i size state s = some ((a.setkeepalive i size state t).1, w') ∧
      Rel w' (a.setkeepalive i size state t).2 := by
  have hrel := h.socks hs ht
  rw [Worker.setkeepalive, Spec.setkeepalive, hrel.key, hrel.peer]
  cases hkeep : keepable state t.key t.peer with
  | error ret => exact ⟨w, rfl, h⟩
  | ok r =>
    obtain ⟨key, u, c⟩ := r
    obtain ⟨hkey, hu, hc⟩ := keepable_ok hkeep
    simp only [Spec.steady, ht, Option.all_some, hkey, Bool.and_eq_true, List.all_eq_true, decide_eq_true_eq,
      Bool.or_eq_true, Bool.not_eq_true'] at hsteady
    obtain ⟨htext, hpool⟩ := hsteady
    have hpool' : t.peer.any Peer.out = true → t.pool = some key := fun ho =>
      hpool.resolve_left (ne_false_of_eq_true ho)
    dsimp only
    cases hreg : w.registry key with
    | some p =>
      obtain ⟨pool, -, hst⟩ := h.pools hreg
      rw [hst.shelf]
      exact h.keep hs ht hu hc hreg hst.shelf hpool' state
    | none =>
      rw [h.absent hreg]
      dsimp only
      by_cases hsize : size = 0
      · rw [if_pos hsize, if_pos hsize]
        exact ⟨w, rfl, h⟩
      · rw [if_neg hsize, if_neg hsize]
        have hnew := h.createPool hreg (fun h0 => htext 0 h0 rfl) hsize
        exact hnew.keep hs ht hu hc (if_pos rfl) (if_pos rfl) hpool' state

theorem Keeps.collect (h : Rel w a) (p : Nat) : Rel (w.collect p) a := by
  rw [Worker.collect]
  cases hp : w.pool? p with
  | none => exact h
  | some pool =>
    dsimp only
    by_cases hreg : w.registry pool.key = some p
    · rw [if_pos hreg]
      exact h
    · rw [if_neg hreg, h.garbage hp hreg]
      have hheap : ∀ q, Worker.pool? q { w with heap := w.heap.set p none } = if p = q then none else w.pool? q := by
        intro q
        simp only [Worker.pool?, List.getElem?_set]
        split
        · split <;> rfl
        · rfl
      refine ⟨h.opened, h.next, h.length, h.socks, h.absent, fun {k q} hk => ?_, fun {q pool'} hq hne => ?_⟩
      · obtain ⟨pool', hpool', hst⟩ := h.pools hk
        have hpq : p ≠ q := by
          rintro rfl
          obtain rfl : pool = pool' := Option.some.inj (hp.symm.trans hpool')
          exact hreg (hst.key ▸ hk)
        exact ⟨pool', (hheap q).trans ((if_neg hpq).trans hpool'), hst⟩
      · have hq' := (hheap q).symm.trans hq
        split at hq'
        · cases hq'
        · exact h.garbage hq' hne

theorem Keeps.tcp (h : Rel w a) :
    Rel { w with socks := w.socks ++ [⟨none, none, none⟩] } { a with socks := a.socks ++ [⟨none, none, none⟩] } := by
  refine ⟨h.opened, h.next, by simp [h.length], fun {i s t} hs ht => ?_, h.absent, fun hk => ?_, h.garbage⟩
  · dsimp only at hs ht
    rw [List.getElem?_append] at hs ht
    rw [h.length] at hs
    split at hs
    · rename_i hlt
      rw [if_pos hlt] at ht
      exact h.socks hs ht
    · rename_i hlt
      rw [if_neg hlt] at ht
      obtain rfl := List.mem_singleton.1 (List.mem_of_getElem? hs)
      obtain rfl := List.mem_singleton.1 (List.mem_of_getElem? ht)
      exact ⟨rfl, rfl, fun ho => absurd ho Bool.false_ne_true⟩
  · obtain ⟨pool, hpool, hst⟩ := h.pools hk
    refine ⟨pool, hpool, ⟨hst.key, hst.text, hst.room, hst.shelf, hst.active.trans ?_⟩⟩
    simp [Spec.out, Sock.outs]

end Calls

/-! ## Steps and runs -/

section Runs

variable {w : Worker} {a : Spec}

/-- A call on a socket. -/
theorem Keeps.on (h : Rel w a) (i : Nat) {f : Sock Nat → Option (List Value × Worker)}
    {g : Sock Bytes → List Value × Spec}
    (hfg : ∀ s t, w.socks[i]? = some s → a.socks[i]? = some t → ∃ w', f s = some ((g t).1, w') ∧ Rel w' (g t).2) :
    ∃ w', (w.socks[i]?).elim (some ([], w)) f = some (((a.socks[i]?).elim ([], a) g).1, w') ∧
      Rel w' ((a.socks[i]?).elim ([], a) g).2 := by
  cases hs : w.socks[i]? with
  | none =>
    have ht : a.socks[i]? = none := by
      rw [List.getElem?_eq_none_iff, ← h.length]
      exact List.getElem?_eq_none_iff.1 hs
    rw [ht]
    exact ⟨w, rfl, h⟩
  | some s =>
    obtain ⟨t, ht, -⟩ := h.sock hs
    rw [ht]
    exact hfg s t hs ht

theorem step_keeps (h : Rel w a) (op : Op) (hsteady : a.steady op = true) :
    ∃ w', w.step op = some ((a.step op).1, w') ∧ Rel w' (a.step op).2 := by
  cases op with
  | tcp => exact ⟨_, rfl, h.tcp⟩
  | connect i host port pool error => exact h.on i fun s t hs ht => h.connect hs ht host port pool error
  | setkeepalive i size state => exact h.on i fun s t hs ht => h.setkeepalive hs ht size state hsteady
  | close i =>
    refine h.on i fun s t hs ht => ?_
    have hrel := h.socks hs ht
    rw [Worker.closeCall, Spec.closeCall, hrel.peer]
    cases hu : connected t.peer with
    | none => exact ⟨w, rfl, h⟩
    | some u =>
      obtain ⟨hpeer, -⟩ := Option.filter_eq_some_iff.1 hu
      dsimp only
      cases u.busy with
      | some text => exact ⟨w, rfl, h⟩
      | none =>
        obtain ⟨w', hw', hrel'⟩ := h.finalize hs ht hpeer
        dsimp only
        rw [hw']
        exact ⟨w', rfl, hrel'⟩
  | getreusedtimes i =>
    refine h.on i fun s t hs ht => ?_
    rw [(h.socks hs ht).peer]
    exact ⟨w, rfl, h⟩
  | cleanup i =>
    refine h.on i fun s t hs ht => ?_
    rw [(h.socks hs ht).peer]
    cases hu : t.peer with
    | none => exact ⟨w, rfl, h⟩
    | some u =>
      obtain ⟨w', hw', hrel'⟩ := h.finalize hs ht hu
      exact ⟨w', congrArg (Option.map fun w => ([], w)) hw', hrel'⟩
  | wait i conn read write =>
    refine h.on i fun s t hs ht => ⟨_, rfl, ?_⟩
    have hrel := h.socks hs ht
    rw [hrel.key, hrel.peer]
    exact h.setSame hs ht t.key _ (by cases t.peer <;> rfl)
  | shut i read write =>
    refine h.on i fun s t hs ht => ⟨_, rfl, ?_⟩
    have hrel := h.socks hs ht
    rw [hrel.key, hrel.peer]
    exact h.setSame hs ht t.key _ (by cases t.peer <;> rfl)
  | event key c stale =>
    rw [Worker.step, Spec.step]
    cases hreg : w.registry key with
    | none =>
      rw [h.absent hreg]
      exact ⟨w, rfl, h⟩
    | some p =>
      obtain ⟨pool, hpool, hst⟩ := h.pools hreg
      rw [hst.shelf]
      dsimp only
      rw [hpool]
      dsimp only
      by_cases hc : stale = false ∧ c ∈ pool.cache.map Item.conn
      · obtain ⟨w', hw', hrel'⟩ := h.expire hreg ⟨pool, hpool, hc.2⟩
        rw [if_pos hc, if_pos hc, hw']
        exact ⟨w', rfl, hrel'⟩
      · rw [if_neg hc, if_neg hc]
        exact ⟨w, rfl, h⟩
  | collect p => exact ⟨_, rfl, h.collect p⟩

theorem run_keeps (h : Rel w a) {ops : List Op} (hsteady : a.steadyRun ops = true) :
    ∃ w', w.run ops = some ((a.run ops).1, w') ∧ Rel w' (a.run ops).2 := by
  induction ops generalizing w a with
  | nil => exact ⟨w, rfl, h⟩
  | cons op ops ih =>
    rw [Spec.steadyRun, Bool.and_eq_true] at hsteady
    obtain ⟨w₁, hw₁, hrel₁⟩ := step_keeps h op hsteady.1
    obtain ⟨w', hw', hrel'⟩ := ih hrel₁ hsteady.2
    refine ⟨w', ?_, hrel'⟩
    rw [Worker.run, hw₁]
    dsimp only
    rw [hw']
    rfl

theorem rel_init : Rel Worker.init Spec.init := by
  refine ⟨rfl, rfl, rfl, fun hs => ?_, fun _ => rfl, fun hk => ?_, fun hp => ?_⟩
  · cases hs
  · cases hk
  · cases hp

end Runs

/-- In every run of calls, events and collections, whatever pools are created and freed in it, as long as what was taken
from a pool is put back under the key it was taken with and keys have no byte 0: no call touches a pool that is gone,
every call returns what it returns on shelves, and every pool counts the connections that are idle in it and those that
are out. -/
theorem pools_are_shelves (ops : List Op) (h : Spec.init.steadyRun ops = true) :
    ∃ w, Worker.init.run ops = some ((Spec.init.run ops).1, w) ∧ Rel w (Spec.init.run ops).2 :=
  run_keeps rel_init h

/-- A connection goes to the pool and back, and is closed; the pool goes with it. -/
theorem pools_are_shelves_back :
    ∃ w, Worker.init.run [.tcp, .connect 0 (bytes "h") (some 1) none none, .setkeepalive 0 2 .quiet,
        .connect 0 (bytes "h") (some 1) none none, .getreusedtimes 0, .close 0, .collect 0] =
      some ([[], [.num (.int 1)], [.num (.int 1)], [.num (.int 1)], [.num (.int 1)], [.num (.int 1)], []], w) := by
  obtain ⟨w, hw, -⟩ := pools_are_shelves [.tcp, .connect 0 (bytes "h") (some 1) none none, .setkeepalive 0 2 .quiet,
    .connect 0 (bytes "h") (some 1) none none, .getreusedtimes 0, .close 0, .collect 0] (by decide)
  exact ⟨w, hw⟩

/-- Without that a pool can go while a connection of it is out: the option `pool` becomes the key of a socket even if
the port is bad, and the connection of pool `a` is put down in pool `b`, which does not count it. -/
example :
    (Worker.init.run [.tcp, .tcp, .tcp, .connect 0 (bytes "a") none none none, .setkeepalive 0 1 .quiet,
      .connect 0 (bytes "a") none none none, .connect 0 (bytes "a") (some 70000) (some (bytes "b")) none,
      .setkeepalive 0 2 .quiet, .connect 1 (bytes "a") none (some (bytes "b")) none,
      .connect 2 (bytes "a") none (some (bytes "b")) none, .setkeepalive 2 2 .quiet, .event (bytes "b") 1 false,
      .collect 1, .close 1]).isNone = true := by
  decide

end NgProxy.Keepalive
