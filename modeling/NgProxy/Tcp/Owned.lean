/-
Where the connections are: each one that is open lies on one shelf, once, or is held by one socket. So none is handed
out twice, none is forgotten, and none is used that has been closed.
-/
import NgProxy.Tcp.Shelf

namespace NgProxy.Keepalive

open Lua

/-! ## Places -/

/-- Where a connection is. -/
inductive Place where
  | idle (k : Bytes)
  | held (i : Nat)
  deriving DecidableEq

/-- The connection of a socket. -/
def Sock.carries {π : Type} (t : Sock π) : Option Nat := t.peer.bind Peer.connection

/-- A connection is at a place. -/
def Spec.at (a : Spec) : Place → Nat → Prop
  | .idle k, c => ∃ shelf, a.shelf k = some shelf ∧ c ∈ shelf.idle.map Item.conn
  | .held i, c => ∃ t, a.socks[i]? = some t ∧ t.carries = some c

/-- The open connections are where `place` says, and no shelf has one twice. -/
structure Owned (place : Nat → Option Place) (a : Spec) : Prop where
  located : ∀ {x c}, a.at x c ↔ place c = some x
  nodup : ∀ {k shelf}, a.shelf k = some shelf → (shelf.idle.map Item.conn).Nodup
  opened : ∀ {c}, c ∈ a.opened ↔ place c ≠ none
  distinct : a.opened.Nodup
  fresh : ∀ {c}, a.next ≤ c → place c = none

section Places

variable {place : Nat → Option Place} {a a' : Spec} {i c : Nat} {t t' : Sock Bytes} {k : Bytes} {shelf : Shelf}

theorem at_set (ht : a.socks[i]? = some t) (t' : Sock Bytes) (x : Place) (c : Nat) :
    (a.set i t').at x c ↔ if x = .held i then t'.carries = some c else a.at x c := by
  obtain ⟨hi, -⟩ := List.getElem?_eq_some_iff.1 ht
  cases x with
  | idle k =>
    rw [if_neg (by simp)]
    exact Iff.rfl
  | held j =>
    simp only [Spec.at, Spec.set, Base.set, List.getElem?_set, if_pos hi, Place.held.injEq]
    by_cases hij : i = j
    · simp [hij]
    · simp [hij, Ne.symm hij]

theorem at_setShelf (a : Spec) (k : Bytes) (shelf : Option Shelf) (x : Place) (c : Nat) :
    (a.setShelf k shelf).at x c ↔
      if x = .idle k then ∃ s, shelf = some s ∧ c ∈ s.idle.map Item.conn else a.at x c := by
  cases x with
  | held i =>
    rw [if_neg (by simp)]
    exact Iff.rfl
  | idle k' =>
    simp only [Spec.at, Spec.setShelf, Place.idle.injEq]
    by_cases hk : k' = k
    · simp [hk]
    · simp [hk]

theorem nodup_setShelf (h : ∀ {k s}, a.shelf k = some s → (s.idle.map Item.conn).Nodup) (k : Bytes) {new : Option Shelf}
    (hnew : ∀ s, new = some s → (s.idle.map Item.conn).Nodup) {k' : Bytes} {s : Shelf}
    (hs : (a.setShelf k new).shelf k' = some s) : (s.idle.map Item.conn).Nodup := by
  by_cases hkk : k' = k
  · exact hnew s ((if_pos hkk).symm.trans hs)
  · exact h ((if_neg hkk).symm.trans hs)

theorem Owned.held (h : Owned place a) (ht : a.socks[i]? = some t) (hc : t.carries = some c) :
    place c = some (.held i) := h.located.1 (show a.at (.held i) c from ⟨t, ht, hc⟩)

theorem Owned.idle (h : Owned place a) (hk : a.shelf k = some shelf) (hmem : c ∈ shelf.idle.map Item.conn) :
    place c = some (.idle k) := h.located.1 (show a.at (.idle k) c from ⟨shelf, hk, hmem⟩)

/-! ## Moves -/

/-- Nothing moves. -/
theorem Owned.same (h : Owned place a) (hat : ∀ x c, a'.at x c ↔ a.at x c)
    (hnodup : ∀ {k shelf}, a'.shelf k = some shelf → (shelf.idle.map Item.conn).Nodup) (hopened : a'.opened = a.opened)
    (hnext : a'.next = a.next) : Owned place a' :=
  ⟨(hat _ _).trans h.located, hnodup, hopened ▸ h.opened, hopened ▸ h.distinct, hnext ▸ h.fresh⟩

/-- The connections `cs` are closed. -/
theorem Owned.gone (h : Owned place a) (cs : List Nat) (hat : ∀ x c, a'.at x c ↔ a.at x c ∧ c ∉ cs)
    (hnodup : ∀ {k shelf}, a'.shelf k = some shelf → (shelf.idle.map Item.conn).Nodup) (hdistinct : a'.opened.Nodup)
    (hopened : ∀ d, d ∈ a'.opened ↔ d ∈ a.opened ∧ d ∉ cs) (hnext : a'.next = a.next) :
    Owned (fun d => if d ∈ cs then none else place d) a' := by
  refine ⟨fun {x c} => ?_, hnodup, fun {d} => ?_, hdistinct, fun {d} hd => ?_⟩
  · rw [hat, h.located]
    by_cases hmem : c ∈ cs
    · simp [hmem]
    · simp [hmem]
  · rw [hopened, h.opened]
    by_cases hmem : d ∈ cs
    · simp [hmem]
    · simp [hmem]
  · split
    · rfl
    · exact h.fresh (hnext ▸ hd)

/-- A connection goes to the place `y`; it may be a new one. -/
theorem Owned.moved (h : Owned place a) (y : Place) (new : Nat)
    (hat : ∀ x c, a'.at x c ↔ a.at x c ∧ c ≠ new ∨ x = y ∧ c = new)
    (hnodup : ∀ {k shelf}, a'.shelf k = some shelf → (shelf.idle.map Item.conn).Nodup) (hdistinct : a'.opened.Nodup)
    (hopened : ∀ d, d ∈ a'.opened ↔ d ∈ a.opened ∨ d = new) (hnext : a.next ≤ a'.next) (hold : new < a'.next) :
    Owned (fun d => if d = new then some y else place d) a' := by
  refine ⟨fun {x c} => ?_, hnodup, fun {d} => ?_, hdistinct, fun {d} hd => ?_⟩
  · rw [hat, h.located]
    by_cases heq : c = new
    · simp [heq, eq_comm]
    · simp [heq]
  · rw [hopened, h.opened]
    by_cases heq : d = new
    · simp [heq]
    · simp [heq]
  · rw [if_neg (by omega)]
    exact h.fresh (hnext.trans hd)

/-! ## What the calls do -/

theorem Owned.set (h : Owned place a) (ht : a.socks[i]? = some t) (hsame : t'.carries = t.carries) :
    Owned place (a.set i t') := by
  refine h.same (fun x c => ?_) h.nodup rfl rfl
  rw [at_set ht]
  split
  · rename_i hx
    rw [hx, hsame]
    constructor
    · intro hc
      exact ⟨t, ht, hc⟩
    · rintro ⟨x, hx, hc⟩
      rwa [Option.some.inj (ht.symm.trans hx)]
  · exact Iff.rfl

theorem Owned.tidy (h : Owned place a) (k : Bytes) : Owned place (a.tidy k) := by
  rw [Spec.tidy]
  cases hk : a.shelf k with
  | none => exact h
  | some shelf =>
    dsimp only
    split
    · rename_i hunused
      refine h.same (fun x c => ?_) (nodup_setShelf h.nodup k fun s hs => by cases hs) rfl rfl
      rw [at_setShelf]
      split
      · rename_i hx
        rw [hx]
        constructor
        · rintro ⟨s, hs, -⟩
          cases hs
        · rintro ⟨s, hs, hmem⟩
          obtain rfl := Option.some.inj (hk.symm.trans hs)
          rw [hunused.1] at hmem
          cases hmem
      · exact Iff.rfl
    · exact h

theorem closed_carries (t : Sock Bytes) (u : Peer) : Sock.carries { t with peer := some u.closed } = none := rfl

theorem Owned.finalize {u : Peer} (h : Owned place a) (ht : a.socks[i]? = some t) (hu : t.peer = some u) :
    ∃ place', Owned place' (a.finalize i t u) := by
  rw [Spec.finalize]
  dsimp only
  cases hc : u.connection with
  | none => exact ⟨place, h.set ht (by rw [closed_carries, Sock.carries, hu]; exact hc.symm)⟩
  | some c =>
    have hcarries : t.carries = some c := by
      rw [Sock.carries, hu]
      exact hc
    have hplace := h.held ht hcarries
    have hgone : Owned (fun d => if d ∈ [c] then none else place d)
        ((a.set i { t with peer := some u.closed }).close c) := by
      refine h.gone [c] (fun x d => ?_) h.nodup (h.distinct.erase c) (fun d => ?_) rfl
      · refine (at_set ht _ x d).trans ?_
        rw [closed_carries, List.mem_singleton]
        split
        · rename_i hx
          refine iff_of_false (by simp) ?_
          rintro ⟨hat, hne⟩
          obtain ⟨t', ht', hd⟩ := hx ▸ hat
          obtain rfl := Option.some.inj (ht.symm.trans ht')
          exact hne (Option.some.inj (hd.symm.trans hcarries))
        · rename_i hx
          refine (and_iff_left_of_imp fun hat => ?_).symm
          rintro rfl
          exact hx (Option.some.inj ((h.located.1 hat).symm.trans hplace))
      · rw [List.mem_singleton, and_comm]
        exact h.distinct.mem_erase_iff
    dsimp only
    split
    · exact ⟨_, hgone⟩
    · split
      · exact ⟨_, hgone⟩
      · exact ⟨_, hgone.tidy _⟩

theorem eraseP_conn (l : List Item) (c : Nat) : (l.eraseP (·.conn = c)).map Item.conn = (l.map Item.conn).erase c := by
  rw [List.erase_eq_eraseP, List.eraseP_map]
  congr 2
  funext item
  show decide (item.conn = c) = (c == item.conn)
  rw [Bool.eq_iff_iff, decide_eq_true_iff, beq_iff_eq, eq_comm]

theorem Owned.expire (h : Owned place a) (k : Bytes) (hc : a.at (.idle k) c) :
    ∃ place', Owned place' (a.expire k c) := by
  obtain ⟨shelf, hk, hmem⟩ := hc
  have hplace := h.idle hk hmem
  have hnodup := h.nodup hk
  have hgone : Owned (fun d => if d ∈ [c] then none else place d)
      ((a.close c).setShelf k (some { shelf with idle := shelf.idle.eraseP (·.conn = c) })) := by
    refine h.gone [c] (fun x d => ?_) (nodup_setShelf (a := a.close c) h.nodup k ?_) (h.distinct.erase c)
      (fun d => ?_) rfl
    · rw [at_setShelf, List.mem_singleton]
      split
      · rename_i hx
        rw [hx]
        constructor
        · rintro ⟨s, hs, hd⟩
          cases hs
          rw [eraseP_conn, hnodup.mem_erase_iff] at hd
          exact ⟨⟨shelf, hk, hd.2⟩, hd.1⟩
        · rintro ⟨⟨s, hs, hd⟩, hne⟩
          obtain rfl := Option.some.inj (hk.symm.trans hs)
          refine ⟨_, rfl, ?_⟩
          rw [eraseP_conn, hnodup.mem_erase_iff]
          exact ⟨hne, hd⟩
      · rename_i hx
        refine (and_iff_left_of_imp fun hat => ?_).symm
        rintro rfl
        exact hx (Option.some.inj ((h.located.1 hat).symm.trans hplace))
    · rintro s ⟨⟩
      rw [eraseP_conn]
      exact hnodup.erase c
    · rw [List.mem_singleton, and_comm]
      exact h.distinct.mem_erase_iff
  rw [Spec.expire, hk]
  exact ⟨_, hgone.tidy k⟩

theorem Owned.known (h : Owned place a) {x : Place} (hc : a.at x c) : c ∈ a.opened ∧ c < a.next := by
  have hplace := h.located.1 hc
  refine ⟨h.opened.2 (by rw [hplace]; exact Option.some_ne_none _), ?_⟩
  by_contra hle
  rw [h.fresh (not_lt.1 hle)] at hplace
  cases hplace

/-- A socket without a connection, and one that has just got one. -/
theorem at_held_none (ht : a.socks[i]? = some t) (hnone : t.carries = none) (c : Nat) : ¬a.at (.held i) c := by
  rintro ⟨t', ht', hc⟩
  obtain rfl := Option.some.inj (ht.symm.trans ht')
  rw [hnone] at hc
  cases hc

theorem Owned.dial (h : Owned place a) (ht : a.socks[i]? = some t) (hnone : t.carries = none)
    (hnone' : t'.carries = none) (error : Option Bytes) :
    ∃ place', Owned place' { a with toBase := (a.toBase.dial i t' error).2 } := by
  cases error with
  | some text => exact ⟨place, h.set ht (hnone'.trans hnone.symm)⟩
  | none =>
    have hnew : a.next ∉ a.opened := fun hmem => h.opened.1 hmem (h.fresh le_rfl)
    refine ⟨_, h.moved (.held i) a.next (fun x c => ?_) h.nodup (List.nodup_cons.2 ⟨hnew, h.distinct⟩) (fun d => ?_)
      (Nat.le_succ _) (Nat.lt_succ_self _)⟩
    · refine (at_set ht _ x c).trans ?_
      split
      · rename_i hx
        subst hx
        have hno := at_held_none ht hnone c
        simp [hno, Sock.carries, eq_comm]
      · rename_i hx
        have hlt : a.at x c → c ≠ a.next := fun hc => (h.known hc).2.ne
        simp only [hx, false_and, or_false]
        exact (and_iff_left_of_imp hlt).symm
    · rw [or_comm]
      exact List.mem_cons

theorem Owned.take (h : Owned place a) (ht : a.socks[i]? = some t) (hnone : t.carries = none) (key : Bytes)
    (error : Option Bytes) : ∃ place', Owned place' (a.take i key error).2 := by
  rw [Spec.take]
  cases hk : a.shelf key with
  | none => exact h.dial ht hnone rfl error
  | some shelf =>
    dsimp only
    cases hidle : shelf.idle with
    | nil => exact h.dial ht hnone rfl error
    | cons item idle =>
      have hnodup := h.nodup hk
      rw [hidle, List.map_cons, List.nodup_cons] at hnodup
      have hitem : a.at (.idle key) item.conn := ⟨shelf, hk, by rw [hidle]; exact List.mem_cons_self⟩
      have hplace := h.located.1 hitem
      obtain ⟨hopened, hlt⟩ := h.known hitem
      refine ⟨_, h.moved (.held i) item.conn (fun x c => ?_) (nodup_setShelf h.nodup key ?_) h.distinct (fun d => ?_)
        le_rfl hlt⟩
      · refine (at_set (a := a.setShelf key (some { shelf with idle := idle })) ht _ x c).trans ?_
        split
        · rename_i hx
          subst hx
          have hno := at_held_none ht hnone c
          simp [hno, Sock.carries, eq_comm]
        · rename_i hx
          simp only [hx, false_and, or_false]
          rw [at_setShelf]
          split
          · rename_i hx'
            subst hx'
            constructor
            · rintro ⟨s, hs, hc⟩
              cases hs
              refine ⟨⟨shelf, hk, by rw [hidle]; exact List.mem_cons_of_mem _ hc⟩, ?_⟩
              rintro rfl
              exact hnodup.1 hc
            · rintro ⟨⟨s, hs, hc⟩, hne⟩
              obtain rfl := Option.some.inj (hk.symm.trans hs)
              rw [hidle] at hc
              exact ⟨_, rfl, (List.mem_cons.1 hc).resolve_left hne⟩
          · rename_i hx'
            refine (and_iff_left_of_imp fun hat => ?_).symm
            rintro rfl
            exact hx' (Option.some.inj ((h.located.1 hat).symm.trans hplace))
      · rintro s ⟨⟩
        exact hnodup.2
      · refine (or_iff_left_of_imp ?_).symm
        rintro rfl
        exact hopened

theorem Owned.connect (h : Owned place a) (ht : a.socks[i]? = some t) (host : Bytes) (port : Option Int)
    (pool error : Option Bytes) : ∃ place', Owned place' (a.connect i host port pool error t).2 := by
  rw [Spec.connect]
  generalize prepare host port pool t.key t.peer = r
  obtain ⟨key, r⟩ := r
  have hset : Owned place (a.set i { t with key := key }) := h.set ht rfl
  have ht' := set_socks ht { t with key := key }
  cases r with
  | error ret => exact ⟨place, hset⟩
  | ok name =>
    dsimp only
    cases hu : t.peer with
    | none =>
      rw [hu] at hset ht'
      exact hset.take ht' rfl name error
    | some u =>
      rw [hu] at hset ht'
      obtain ⟨place', hfin⟩ := hset.finalize ht' rfl
      have ht₁ : (Spec.finalize i ⟨key, some u, t.pool⟩ u (a.set i ⟨key, some u, t.pool⟩)).socks[i]? =
          some ⟨key, some u.closed, t.pool⟩ := by
        rw [finalize_socks]
        exact set_socks ht' _
      exact hfin.take ht₁ rfl name error

theorem closeAll_opened (items : List Item) {a : Spec} (h : a.opened.Nodup) :
    (items.foldl (fun a item => a.close item.conn) a).opened.Nodup ∧
      (∀ d, d ∈ (items.foldl (fun a item => a.close item.conn) a).opened ↔
        d ∈ a.opened ∧ d ∉ items.map Item.conn) ∧
      (items.foldl (fun a item => a.close item.conn) a).next = a.next := by
  induction items generalizing a with
  | nil => exact ⟨h, fun d => by simp, rfl⟩
  | cons item items ih =>
    obtain ⟨hnodup, hmem, hnext⟩ := ih (a := a.close item.conn) (h.erase item.conn)
    refine ⟨hnodup, fun d => ?_, hnext⟩
    rw [List.foldl_cons, hmem, List.map_cons, List.mem_cons, not_or]
    show d ∈ a.opened.erase item.conn ∧ _ ↔ _
    rw [h.mem_erase_iff]
    tauto

theorem at_frame (hsocks : a'.socks = a.socks) (hshelf : a'.shelf = a.shelf) (x : Place) (c : Nat) :
    a'.at x c ↔ a.at x c := by
  cases x with
  | idle k => rw [Spec.at, Spec.at, hshelf]
  | held i => rw [Spec.at, Spec.at, hsocks]

/-- A connection is put down in front of the others. -/
theorem Owned.putFront (h : Owned place a) (ht : a.socks[i]? = some t) (hc : t.carries = some c)
    (hk : a.shelf k = some shelf) (r : Nat) (t' : Sock Bytes) (hnone : t'.carries = none) :
    Owned (fun d => if d = c then some (.idle k) else place d)
      ((a.setShelf k (some { shelf with idle := ⟨c, r⟩ :: shelf.idle })).set i t') := by
  have hplace := h.held ht hc
  obtain ⟨hopened, hlt⟩ := h.known (x := .held i) ⟨t, ht, hc⟩
  have hnew : c ∉ shelf.idle.map Item.conn := fun hmem => by
    have := (h.idle hk hmem).symm.trans hplace
    cases this
  refine h.moved (.idle k) c (fun x d => ?_) (nodup_setShelf h.nodup k ?_) h.distinct (fun d => ?_) le_rfl hlt
  · refine (at_set (a := a.setShelf k _) ht _ x d).trans ?_
    rw [hnone]
    split
    · rename_i hx
      subst hx
      refine iff_of_false (by simp) ?_
      rintro (⟨⟨x, hx, hd⟩, hne⟩ | ⟨hx, -⟩)
      · obtain rfl := Option.some.inj (ht.symm.trans hx)
        exact hne (Option.some.inj (hd.symm.trans hc))
      · cases hx
    · rename_i hx
      rw [at_setShelf]
      split
      · rename_i hx'
        subst hx'
        constructor
        · rintro ⟨s, hs, hd⟩
          cases hs
          rcases List.mem_cons.1 hd with rfl | hd
          · exact .inr ⟨rfl, rfl⟩
          · exact .inl ⟨⟨shelf, hk, hd⟩, fun heq => hnew (heq ▸ hd)⟩
        · rintro (⟨⟨s, hs, hd⟩, -⟩ | ⟨-, rfl⟩)
          · obtain rfl := Option.some.inj (hk.symm.trans hs)
            exact ⟨_, rfl, List.mem_cons_of_mem _ hd⟩
          · exact ⟨_, rfl, List.mem_cons_self⟩
      · rename_i hx'
        simp only [hx', false_and, or_false]
        refine (and_iff_left_of_imp fun hat => ?_).symm
        rintro rfl
        exact hx (Option.some.inj ((h.located.1 hat).symm.trans hplace))
  · rintro s ⟨⟩
    exact List.nodup_cons.2 ⟨hnew, h.nodup hk⟩
  · refine (or_iff_left_of_imp ?_).symm
    rintro rfl
    exact hopened

/-- Those there is no room for are closed. -/
theorem Owned.trim (h : Owned place a) (hk : a.shelf k = some shelf) (n : Nat) :
    ∃ place', Owned place' (((shelf.idle.drop n).foldl (fun a item => a.close item.conn) a).setShelf k
      (some { shelf with idle := shelf.idle.take n })) := by
  have hnodup := h.nodup hk
  have hparts : shelf.idle.map Item.conn = (shelf.idle.take n).map Item.conn ++ (shelf.idle.drop n).map Item.conn := by
    rw [← List.map_append, List.take_append_drop]
  rw [hparts, List.nodup_append] at hnodup
  obtain ⟨htake, -, hapart⟩ := hnodup
  obtain ⟨hdistinct, hmem, hnext⟩ := closeAll_opened (shelf.idle.drop n) h.distinct
  obtain ⟨hsocks, hshelf⟩ := closeAll_frame (shelf.idle.drop n) a
  refine ⟨_, h.gone ((shelf.idle.drop n).map Item.conn) (fun x d => ?_)
    (nodup_setShelf (fun hs => h.nodup (hshelf ▸ hs)) k ?_) hdistinct hmem hnext⟩
  · rw [at_setShelf]
    split
    · rename_i hx
      subst hx
      constructor
      · rintro ⟨s, hs, hd⟩
        cases hs
        refine ⟨⟨shelf, hk, ?_⟩, fun hd' => hapart d hd d hd' rfl⟩
        rw [hparts]
        exact List.mem_append_left _ hd
      · rintro ⟨⟨s, hs, hd⟩, hd'⟩
        obtain rfl := Option.some.inj (hk.symm.trans hs)
        rw [hparts] at hd
        exact ⟨_, rfl, (List.mem_append.1 hd).resolve_right hd'⟩
    · rename_i hx
      rw [at_frame hsocks hshelf]
      refine (and_iff_left_of_imp fun hat hd => ?_).symm
      have hidle : d ∈ shelf.idle.map Item.conn := by
        rw [hparts]
        exact List.mem_append_right _ hd
      exact hx (Option.some.inj ((h.located.1 hat).symm.trans (h.idle hk hidle)))
  · rintro s ⟨⟩
    exact htake

theorem closeAll_comm (items : List Item) (a : Spec) (k : Bytes) (shelf : Option Shelf) (i : Nat) (t : Sock Bytes) :
    items.foldl (fun a item => a.close item.conn) ((a.setShelf k shelf).set i t) =
      ((items.foldl (fun a item => a.close item.conn) a).setShelf k shelf).set i t := by
  induction items generalizing a with
  | nil => rfl
  | cons item items ih => exact ih (a.close item.conn)

theorem setShelf_setShelf (a : Spec) (k : Bytes) (x y : Option Shelf) (i : Nat) (t : Sock Bytes) :
    ((a.setShelf k x).set i t).setShelf k y = (a.setShelf k y).set i t := by
  simp only [Spec.setShelf, Spec.set]
  congr 1
  funext k'
  split
  · rfl
  · rfl

theorem Owned.keep {u : Peer} (h : Owned place a) (ht : a.socks[i]? = some t) (hu : t.peer = some u)
    (hc : u.connection = some c) (hk : a.shelf k = some shelf) (state : Readiness) (hsize : shelf.size ≠ 0) :
    ∃ place', Owned place' (a.keep i k shelf t u c state).2 := by
  have hcarries : t.carries = some c := by
    rw [Sock.carries, hu]
    exact hc
  have hput : ∀ u' : Peer, u'.connection = none → ∃ place', Owned place'
      (((((⟨c, u.reused⟩ :: shelf.idle).drop shelf.size).foldl (fun a item => a.close item.conn) a).setShelf k
        (some { shelf with idle := (⟨c, u.reused⟩ :: shelf.idle).take shelf.size })).set i
        { t with peer := some u' }) := by
    intro u' hu'
    have hfront := h.putFront ht hcarries hk u.reused { t with peer := some u' } hu'
    obtain ⟨place', htrim⟩ := hfront.trim (if_pos rfl) shelf.size
    rw [closeAll_comm, setShelf_setShelf] at htrim
    exact ⟨place', htrim⟩
  rw [Spec.keep]
  split
  · obtain ⟨place', hplace'⟩ := hput { u with connection := none } rfl
    refine hplace'.expire k ?_
    obtain ⟨n, hn⟩ := Nat.exists_eq_succ_of_ne_zero hsize
    refine ⟨_, if_pos rfl, ?_⟩
    rw [hn]
    exact List.mem_cons_self
  · exact hput _ rfl

theorem Owned.setkeepalive (h : Owned place a) (hroom : ∀ {k shelf}, a.shelf k = some shelf → shelf.size ≠ 0)
    (ht : a.socks[i]? = some t) (size : Nat) (state : Readiness) :
    ∃ place', Owned place' (a.setkeepalive i size state t).2 := by
  rw [Spec.setkeepalive]
  cases hkeep : keepable state t.key t.peer with
  | error ret => exact ⟨place, h⟩
  | ok r =>
    obtain ⟨key, u, c⟩ := r
    obtain ⟨-, hu, hc⟩ := keepable_ok hkeep
    dsimp only
    cases hk : a.shelf key with
    | some shelf => exact h.keep ht hu hc hk state (hroom hk)
    | none =>
      dsimp only
      split
      · exact ⟨place, h⟩
      · rename_i hsize
        -- the new shelf is empty, so nothing has moved yet
        have hnew : Owned place (a.setShelf key (some ⟨size, []⟩)) := by
          refine h.same (fun x d => ?_) (nodup_setShelf h.nodup key ?_) rfl rfl
          · rw [at_setShelf]
            split
            · rename_i hx
              rw [hx]
              constructor
              · rintro ⟨s, hs, hd⟩
                cases hs
                cases hd
              · rintro ⟨s, hs, -⟩
                rw [hk] at hs
                cases hs
            · exact Iff.rfl
          · rintro s ⟨⟩
            exact List.nodup_nil
        exact hnew.keep (a := a.setShelf key (some ⟨size, []⟩)) ht hu hc (if_pos rfl) state hsize

theorem Owned.closeCall (h : Owned place a) (ht : a.socks[i]? = some t) :
    ∃ place', Owned place' (a.closeCall i t).2 := by
  rw [Spec.closeCall]
  cases hu : connected t.peer with
  | none => exact ⟨place, h⟩
  | some u =>
    obtain ⟨hpeer, -⟩ := Option.filter_eq_some_iff.1 hu
    dsimp only
    cases u.busy with
    | some text => exact ⟨place, h⟩
    | none => exact h.finalize ht hpeer

theorem Owned.tcp (h : Owned place a) : Owned place { a with socks := a.socks ++ [⟨none, none, none⟩] } := by
  refine h.same (fun x c => ?_) h.nodup rfl rfl
  cases x with
  | idle k => exact Iff.rfl
  | held i =>
    simp only [Spec.at, List.getElem?_append]
    split
    · exact Iff.rfl
    · rename_i hi
      rw [List.getElem?_eq_none (not_lt.1 hi)]
      constructor
      · rintro ⟨t, ht, hc⟩
        rw [List.getElem?_singleton] at ht
        split at ht
        · cases ht
          cases hc
        · cases ht
      · rintro ⟨t, ht, -⟩
        cases ht

theorem Owned.on (h : Owned place a) (i : Nat) {g : Sock Bytes → List Value × Spec}
    (hg : ∀ t, a.socks[i]? = some t → ∃ place', Owned place' (g t).2) :
    ∃ place', Owned place' ((a.socks[i]?).elim ([], a) g).2 := by
  cases ht : a.socks[i]? with
  | none => exact ⟨place, h⟩
  | some t => exact hg t ht

/-! ## Runs -/

theorem step_owned (h : Owned place a) (hroom : ∀ {k shelf}, a.shelf k = some shelf → shelf.size ≠ 0) (op : Op) :
    ∃ place', Owned place' (a.step op).2 := by
  cases op with
  | tcp => exact ⟨place, h.tcp⟩
  | connect i host port pool error => exact h.on i fun t ht => h.connect ht host port pool error
  | setkeepalive i size state => exact h.on i fun t ht => h.setkeepalive hroom ht size state
  | close i => exact h.on i fun t ht => h.closeCall ht
  | getreusedtimes i => exact h.on i fun t ht => ⟨place, h⟩
  | cleanup i =>
    refine h.on i fun t ht => ?_
    cases hu : t.peer with
    | none => exact ⟨place, h⟩
    | some u => exact h.finalize ht hu
  | wait i conn read write =>
    refine h.on i fun t ht => ⟨place, h.set ht ?_⟩
    simp only [Sock.carries]
    cases t.peer <;> rfl
  | shut i read write =>
    refine h.on i fun t ht => ⟨place, h.set ht ?_⟩
    simp only [Sock.carries]
    cases t.peer <;> rfl
  | event key c stale =>
    rw [Spec.step]
    cases hk : a.shelf key with
    | none => exact ⟨place, h⟩
    | some shelf =>
      dsimp only
      split
      · rename_i hc
        exact h.expire key ⟨shelf, hk, hc.2⟩
      · exact ⟨place, h⟩
  | collect p => exact ⟨place, h⟩

theorem Keeps.room {w : Worker} (h : Rel w a) (hk : a.shelf k = some shelf) :
    shelf.size ≠ 0 ∧ shelf.idle.length ≤ shelf.size := by
  cases hreg : w.registry k with
  | none =>
    rw [h.absent hreg] at hk
    cases hk
  | some p =>
    obtain ⟨pool, -, hst⟩ := h.pools hreg
    obtain rfl := Option.some.inj (hst.shelf.symm.trans hk)
    exact ⟨hst.room.ne', Nat.le_add_right _ _⟩

theorem run_owned {w : Worker} (hrel : Rel w a) (h : Owned place a) {ops : List Op} (hsteady : a.steadyRun ops = true) :
    ∃ place', Owned place' (a.run ops).2 := by
  induction ops generalizing w a place with
  | nil => exact ⟨place, h⟩
  | cons op ops ih =>
    rw [Spec.steadyRun, Bool.and_eq_true] at hsteady
    obtain ⟨w', -, hrel'⟩ := step_keeps hrel op hsteady.1
    obtain ⟨place', h'⟩ := step_owned h (fun hk => (hrel.room hk).1) op
    exact ih hrel' h' hsteady.2

theorem owned_init : Owned (fun _ => none) Spec.init := by
  refine ⟨fun {x c} => iff_of_false ?_ (by simp), fun hk => ?_, fun {c} => ?_, List.nodup_nil, fun _ => rfl⟩
  · cases x with
    | idle k =>
      rintro ⟨shelf, hk, -⟩
      cases hk
    | held i =>
      rintro ⟨t, ht, -⟩
      cases ht
  · cases hk
  · exact iff_of_false List.not_mem_nil (by simp)

end Places

/-- A connection is at a place of the worker: in a pool with the key `k`, whether the table has the pool or not, or in a
socket. -/
def Worker.at (w : Worker) : Place → Nat → Prop
  | .idle k, c => ∃ p pool, w.pool? p = some pool ∧ pool.key = k ∧ c ∈ pool.cache.map Item.conn
  | .held i, c => ∃ s, w.socks[i]? = some s ∧ s.carries = some c

theorem Keeps.at_iff {w : Worker} {a : Spec} (h : Rel w a) (x : Place) (c : Nat) : w.at x c ↔ a.at x c := by
  cases x with
  | held i =>
    constructor
    · rintro ⟨s, hs, hc⟩
      obtain ⟨t, ht, hrel⟩ := h.sock hs
      refine ⟨t, ht, ?_⟩
      rwa [Sock.carries, ← hrel.peer]
    · rintro ⟨t, ht, hc⟩
      obtain ⟨s, hs⟩ := h.sock' ht
      refine ⟨s, hs, ?_⟩
      rwa [Sock.carries, (h.socks hs ht).peer]
  | idle k =>
    constructor
    · rintro ⟨p, pool, hp, rfl, hc⟩
      -- a pool that the table does not have is empty
      by_cases hreg : w.registry pool.key = some p
      · obtain ⟨pool', hp', hst⟩ := h.pools hreg
        obtain rfl := Option.some.inj (hp.symm.trans hp')
        exact ⟨_, hst.shelf, hc⟩
      · rw [h.garbage hp hreg] at hc
        cases hc
    · rintro ⟨shelf, hk, hc⟩
      cases hreg : w.registry k with
      | none =>
        rw [h.absent hreg] at hk
        cases hk
      | some p =>
        obtain ⟨pool, hp, hst⟩ := h.pools hreg
        obtain rfl := Option.some.inj (hst.shelf.symm.trans hk)
        exact ⟨p, pool, hp, hst.key, hc⟩

/-- At the end of every such run the open connections are just those that are somewhere, each at one place: none is in
two pools or sockets, none has been lost, and what is in a pool or a socket has not been closed. -/
theorem connections_owned (ops : List Op) (h : Spec.init.steadyRun ops = true) :
    ∃ rets w, Worker.init.run ops = some (rets, w) ∧ w.opened.Nodup ∧
      (∀ c, c ∈ w.opened ↔ ∃ x, w.at x c) ∧ (∀ x y c, w.at x c → w.at y c → x = y) ∧
      ∀ p pool, w.pool? p = some pool → (pool.cache.map Item.conn).Nodup := by
  obtain ⟨w, hw, hrel⟩ := run_keeps rel_init h
  obtain ⟨place, howned⟩ := run_owned rel_init owned_init h
  refine ⟨_, w, hw, ?_, fun c => ?_, fun x y c hx hy => ?_, fun p pool hp => ?_⟩
  · rw [hrel.opened]
    exact howned.distinct
  · rw [hrel.opened, howned.opened, Option.ne_none_iff_exists']
    refine exists_congr fun x => ?_
    rw [hrel.at_iff, howned.located]
  · rw [hrel.at_iff, howned.located] at hx hy
    exact Option.some.inj (hx.symm.trans hy)
  · by_cases hreg : w.registry pool.key = some p
    · obtain ⟨pool', hp', hst⟩ := hrel.pools hreg
      obtain rfl := Option.some.inj (hp.symm.trans hp')
      exact howned.nodup hst.shelf
    · rw [hrel.garbage hp hreg]
      exact List.nodup_nil

/-- Two sockets put their connections down in a pool of one, and the first connection is closed for the second. -/
theorem connections_owned_evicted :
    Spec.init.steadyRun [.tcp, .tcp, .connect 0 (bytes "h") (some 1) none none,
      .connect 1 (bytes "h") (some 1) none none,
        .setkeepalive 0 1 .quiet, .setkeepalive 1 1 .quiet] = true ∧
      ∃ rets w, Worker.init.run [.tcp, .tcp, .connect 0 (bytes "h") (some 1) none none,
          .connect 1 (bytes "h") (some 1) none none, .setkeepalive 0 1 .quiet, .setkeepalive 1 1 .quiet] =
        some (rets, w) ∧ w.opened = [1] ∧ ∀ x, w.at x 1 → x = .idle (bytes "h:1") := by
  have hsteady : Spec.init.steadyRun [.tcp, .tcp, .connect 0 (bytes "h") (some 1) none none,
      .connect 1 (bytes "h") (some 1) none none, .setkeepalive 0 1 .quiet, .setkeepalive 1 1 .quiet] = true := by decide
  obtain ⟨rets, w, hw, -, -, hone, -⟩ := connections_owned _ hsteady
  refine ⟨hsteady, rets, w, hw, ?_, fun x hx => hone x _ 1 hx ?_⟩
  · exact congrArg (fun r => r.2.opened) (Option.some.inj hw).symm
  · cases hw
    exact ⟨0, _, rfl, rfl, List.mem_cons_self⟩

end NgProxy.Keepalive
