/-
Module: Chaotix.Proofs.SocketRefs
Layer: Proofs
Purpose: The counter of the inode of a socket is one more than the number of descriptions that refer to it, in
  every state of every run: `unix_socket_create` counts a reference that nobody gives back. So no socket is
  ever released, and the runs in which the counters are right are those that create none.
Imports: Mathlib.Tactic, Chaotix.Lib.Count, Chaotix.Kernel.SocketCalls, Chaotix.Proofs.DescriptorCounts
Trusted boundary: none
Main exports: SocketsReleased, LeavesNone, SocketRefs, socket_release_iff
-/
import Mathlib.Tactic
import Chaotix.Lib.Count
import Chaotix.Kernel.SocketCalls
import Chaotix.Proofs.DescriptorCounts

set_option linter.unusedSectionVars false

namespace Chaotix

/-! ### What the claim is about -/

section Claim

variable {P D N S : Type}

/-- The inode that a live description refers to. -/
def Files.refers (s : Files P D N S) (d : D) : Option (InodeRef N S) :=
  if s.descLive d = true then some (s.desc d).inode else none

/-- How many open descriptions refer to a socket. -/
noncomputable def Files.openOn (s : Files P D N S) (k : S) : ℕ∞ :=
  countWhere (· = some (InodeRef.socket k)) s.refers

/-- Each socket is counted once for each open description that refers to it. -/
def SocketsReleased (s : Files P D N S) : Prop :=
  ∀ k, s.socketLive k = true → ((s.socket k).refCount : ℕ∞) = s.openOn k

/-- `bind` and `connect` leave no new description outside the tables. -/
def LeavesNone (call : SocketCall D N S) (s s' : Files P D N S) : Prop :=
  match call with
  | .bind _ _ | .connect _ _ _ _ =>
      ∀ d, s'.descLive d = true → s.descLive d = true ∨ ∃ k, s'.slot k = some d
  | _ => True

/-- The call is a `socket` that is handed a block for the socket. -/
def SocketCall.Creates : SocketCall D N S → Prop
  | .socket domain type create _ => domain = AF_UNIX ∧ type = SOCK_STREAM ∧ create.block ≠ none
  | _ => False

end Claim

/-! ### The invariant -/

section Invariant

variable {P D N S : Type} [DecidableEq P] [DecidableEq D] [DecidableEq N] [DecidableEq S]

/-- The exact count of the references to sockets. Every description is counted once, since nobody
    duplicates descriptors, and is in one slot at most. -/
structure SocketRefs (s : Files P D N S) : Prop where
  counted : ∀ k, s.socketLive k = true → ((s.socket k).refCount : ℕ∞) = s.openOn k + 1
  refersLive : ∀ d k, s.refers d = some (.socket k) → s.socketLive k = true
  one : ∀ d, s.descLive d = true → (s.desc d).refCount = 1
  slotLive : ∀ p fd d, s.entries p fd = some d → s.descLive d = true
  unique : ∀ p fd p' fd' d, s.entries p fd = some d → s.entries p' fd' = some d → p' = p ∧ fd' = fd
  nextLive : ∀ k c, s.socketLive k = true → (s.socket k).next = some c → s.socketLive c = true
  boundLive : ∀ n k, (s.node n).boundSocket = some k → s.socketLive k = true

variable {s s' : Files P D N S}

/-- A description that no slot holds. -/
def Files.Unheld (s : Files P D N S) (d : D) : Prop := ∀ p fd, s.entries p fd ≠ some d

theorem SocketRefs.unheld (inv : SocketRefs s) {d : D} (hlive : s.descLive d = false) : s.Unheld d := by
  intro p fd hentry
  simp [inv.slotLive p fd d hentry] at hlive

/-- Only inodes of files change. -/
structure OnlyNodes (s s' : Files P D N S) : Prop where
  same : SameDescriptions s s'
  socket : s'.socket = s.socket
  socketLive : s'.socketLive = s.socketLive
  bound : ∀ n k, (s'.node n).boundSocket = some k → (s.node n).boundSocket = some k

theorem SameDescriptions.refers (h : SameDescriptions s s') : s'.refers = s.refers := by
  funext d
  rw [Files.refers, Files.refers, h.desc, h.descLive]

theorem SameDescriptions.openOn (h : SameDescriptions s s') (k : S) : s'.openOn k = s.openOn k := by
  rw [Files.openOn, Files.openOn, h.refers]

theorem OnlyNodes.socketRefs (h : OnlyNodes s s') (inv : SocketRefs s) : SocketRefs s' := by
  constructor
  case counted =>
    rw [h.socketLive, h.socket]
    intro k hk
    rw [h.same.openOn]
    exact inv.counted k hk
  case refersLive =>
    rw [h.same.refers, h.socketLive]
    exact inv.refersLive
  case one =>
    rw [h.same.descLive, h.same.desc]
    exact inv.one
  case slotLive =>
    rw [h.same.entries, h.same.descLive]
    exact inv.slotLive
  case unique =>
    rw [h.same.entries]
    exact inv.unique
  case nextLive =>
    rw [h.socketLive, h.socket]
    exact inv.nextLive
  case boundLive =>
    rw [h.socketLive]
    exact fun n k hk => inv.boundLive n k (h.bound n k hk)

theorem OnlyNodes.refl (s : Files P D N S) : OnlyNodes s s := ⟨.refl s, rfl, rfl, fun _ _ h => h⟩

theorem OnlyNodes.trans {s'' : Files P D N S} (h : OnlyNodes s s') (h' : OnlyNodes s' s'') : OnlyNodes s s'' :=
  ⟨h.same.trans h'.same, h'.socket.trans h.socket, h'.socketLive.trans h.socketLive,
    fun n k hk => h.bound n k (h'.bound n k hk)⟩

theorem onlyNodes_setNode (s : Files P D N S) (n : N) (inode : Inode S)
    (hbound : inode.boundSocket = (s.node n).boundSocket ∨ inode.boundSocket = none) :
    OnlyNodes s (s.setNode n inode) := by
  refine ⟨⟨rfl, rfl, rfl, rfl, rfl, rfl⟩, rfl, rfl, fun m k hk => ?_⟩
  by_cases heq : m = n
  · subst heq
    simp only [Files.setNode, Function.update_self] at hk
    rcases hbound with h | h
    · rwa [← h]
    · simp [h] at hk
  · simpa [Files.setNode, heq] using hk

theorem inodeUnref_node (s : Files P D N S) (n : N) :
    Ensures (inodeUnref (.node n)) s fun _ s' => OnlyNodes s s' := by
  unfold inodeUnref
  rw [ensures_bind, ensures_get, ensures_bind]
  apply ensures_require.2
  intro _
  rw [ensures_bind, ensures_set]
  have hset := onlyNodes_setNode s n { s.node n with refCount := (s.node n).refCount - 1 } (Or.inl rfl)
  split
  · exact ⟨⟨rfl, rfl, rfl, rfl, rfl, rfl⟩, rfl, rfl, hset.bound⟩
  · exact hset

@[simp] theorem setSocket_self (s : Files P D N S) (k : S) (socket : UnixSocket D S) :
    (s.setSocket k socket).socket k = socket := Function.update_self ..

theorem setSocket_of_ne (s : Files P D N S) {k k' : S} (hne : k' ≠ k) (socket : UnixSocket D S) :
    (s.setSocket k socket).socket k' = s.socket k' := Function.update_of_ne hne ..

/-- A socket changes, but not its counter, and its link leads to a socket. -/
theorem SocketRefs.setSocket (inv : SocketRefs s) (k : S) (socket : UnixSocket D S)
    (hcount : socket.refCount = (s.socket k).refCount)
    (hnext : ∀ c, socket.next = some c → s.socketLive c = true) : SocketRefs (s.setSocket k socket) := by
  refine ⟨fun k' hk' => ?_, inv.refersLive, inv.one, inv.slotLive, inv.unique, fun k' c hk' hc => ?_, inv.boundLive⟩
  · by_cases heq : k' = k
    · subst heq
      rw [setSocket_self, hcount]
      exact inv.counted k' hk'
    · rw [setSocket_of_ne s heq]
      exact inv.counted k' hk'
  · by_cases heq : k' = k
    · subst heq
      rw [setSocket_self] at hc
      exact hnext c hc
    · rw [setSocket_of_ne s heq] at hc
      exact inv.nextLive k' c hk' hc

/-- A new socket has a reference, and no description. -/
theorem SocketRefs.newSocket (inv : SocketRefs s) {k : S} (hlive : s.socketLive k = false)
    (socket : UnixSocket D S) (hcount : socket.refCount = 1) (hnext : socket.next = none) :
    SocketRefs (s.newSocket k socket) := by
  have hgrow : ∀ c, s.socketLive c = true → (s.newSocket k socket).socketLive c = true := by
    intro c hc
    by_cases heq : c = k
    · simp [Files.newSocket, heq]
    · simp [Files.newSocket, heq, hc]
  refine ⟨fun k' hk' => ?_, fun d c hd => hgrow c (inv.refersLive d c hd), inv.one, inv.slotLive, inv.unique,
    fun k' c hk' hc => ?_, fun n c hn => hgrow c (inv.boundLive n c hn)⟩
  · by_cases heq : k' = k
    · subst heq
      have hnone : s.openOn k' = 0 := by
        refine countWhere_of_forall_not fun d hd => ?_
        simp [inv.refersLive d k' hd] at hlive
      change (((Function.update s.socket k' socket k').refCount : ℕ) : ℕ∞) = s.openOn k' + 1
      rw [Function.update_self, hcount, hnone, zero_add, Nat.cast_one]
    · simp only [Files.newSocket, Function.update_of_ne heq] at hk'
      change (((Function.update s.socket k socket k').refCount : ℕ) : ℕ∞) = s.openOn k' + 1
      rw [Function.update_of_ne heq]
      exact inv.counted k' hk'
  · by_cases heq : k' = k
    · subst heq
      simp [Files.newSocket, Files.setSocket, hnext] at hc
    · simp only [Files.newSocket, Files.setSocket, Function.update_of_ne heq] at hk' hc
      exact hgrow c (inv.nextLive k' c hk' hc)

/-- A new description of a file. -/
theorem SocketRefs.newDescNode (inv : SocketRefs s) {d : D} (hlive : s.descLive d = false) (n : N)
    (flags : Nat) : SocketRefs (s.newDesc d (.node n) flags) := by
  have hrefers : (s.newDesc d (.node n) flags).refers = Function.update s.refers d (some (.node n)) := by
    funext d'
    by_cases heq : d' = d
    · simp [Files.refers, Files.newDesc, heq]
    · simp [Files.refers, Files.newDesc, heq]
  have hold : s.refers d = none := by simp [Files.refers, hlive]
  constructor
  case counted =>
    intro k hk
    have hsame : (s.newDesc d (.node n) flags).openOn k = s.openOn k := by
      rw [Files.openOn, hrefers]
      exact countWhere_update_same (by simp [hold])
    rw [hsame]
    exact inv.counted k hk
  case refersLive =>
    intro d' k hd'
    by_cases heq : d' = d
    · simp [hrefers, heq] at hd'
    · rw [hrefers, Function.update_of_ne heq] at hd'
      exact inv.refersLive d' k hd'
  case one =>
    intro d' hd'
    by_cases heq : d' = d
    · simp [Files.newDesc, heq]
    · simp only [Files.newDesc, Function.update_of_ne heq] at hd' ⊢
      exact inv.one d' hd'
  case slotLive =>
    intro p fd d' hentry
    have hd' := inv.slotLive p fd d' hentry
    by_cases heq : d' = d
    · simp [Files.newDesc, heq]
    · simpa [Files.newDesc, heq] using hd'
  case unique => exact inv.unique
  case nextLive => exact inv.nextLive
  case boundLive => exact inv.boundLive

/-- A new description of a socket, with a further reference. -/
theorem SocketRefs.newDescSocket (inv : SocketRefs s) {d : D} (hlive : s.descLive d = false) {k : S}
    (hk : s.socketLive k = true) (flags : Nat) :
    SocketRefs ((s.setSocket k { s.socket k with refCount := (s.socket k).refCount + 1 }).newDesc d (.socket k)
      flags) := by
  let s₁ := s.setSocket k { s.socket k with refCount := (s.socket k).refCount + 1 }
  have hrefers : (s₁.newDesc d (.socket k) flags).refers = Function.update s.refers d (some (.socket k)) := by
    funext d'
    by_cases heq : d' = d
    · simp [Files.refers, Files.newDesc, heq]
    · simp [Files.refers, Files.newDesc, heq, s₁, Files.setSocket]
  have hold : s.refers d = none := by simp [Files.refers, hlive]
  change SocketRefs (s₁.newDesc d (.socket k) flags)
  constructor
  case counted =>
    intro k' hk'
    by_cases heq : k' = k
    · subst heq
      have hmore : (s₁.newDesc d (.socket k') flags).openOn k' = s.openOn k' + 1 := by
        rw [Files.openOn, hrefers]
        exact countWhere_update_add (by simp [hold]) rfl
      have hcount : ((s₁.newDesc d (.socket k') flags).socket k').refCount = (s.socket k').refCount + 1 := by
        simp [s₁, Files.newDesc, Files.setSocket]
      rw [hmore, hcount, Nat.cast_add_one, inv.counted k' hk]
    · have hsame : (s₁.newDesc d (.socket k) flags).openOn k' = s.openOn k' := by
        rw [Files.openOn, hrefers]
        exact countWhere_update_same (by simp [hold, Ne.symm heq])
      have hcount : (s₁.newDesc d (.socket k) flags).socket k' = s.socket k' := by
        simp [s₁, Files.newDesc, Files.setSocket, heq]
      rw [hsame, hcount]
      exact inv.counted k' hk'
  case refersLive =>
    intro d' k' hd'
    by_cases heq : d' = d
    · rw [hrefers, heq, Function.update_self] at hd'
      cases hd'
      exact hk
    · rw [hrefers, Function.update_of_ne heq] at hd'
      exact inv.refersLive d' k' hd'
  case one =>
    intro d' hd'
    by_cases heq : d' = d
    · simp [Files.newDesc, heq]
    · simp only [Files.newDesc, Function.update_of_ne heq] at hd' ⊢
      exact inv.one d' hd'
  case slotLive =>
    intro p fd d' hentry
    have hd' := inv.slotLive p fd d' hentry
    by_cases heq : d' = d
    · simp [Files.newDesc, heq]
    · simpa [Files.newDesc, heq, s₁, Files.setSocket] using hd'
  case unique => exact inv.unique
  case nextLive =>
    intro k' c hk' hc
    by_cases heq : k' = k
    · subst heq
      exact inv.nextLive k' c hk (by simpa [s₁, Files.newDesc, Files.setSocket] using hc)
    · exact inv.nextLive k' c hk' (by simpa [s₁, Files.newDesc, Files.setSocket, heq] using hc)
  case boundLive => exact inv.boundLive

/-- A slot takes a description that no slot held. -/
theorem SocketRefs.setEntry (inv : SocketRefs s) {d : D} (hlive : s.descLive d = true) (hunheld : s.Unheld d)
    (p : P) (fd : Nat) : SocketRefs (s.setEntry p fd (some d)) := by
  have hentry : ∀ q j d', (s.setEntry p fd (some d)).entries q j = some d' →
      (q = p ∧ j = fd ∧ d' = d) ∨ s.entries q j = some d' := by
    intro q j d' h
    by_cases hq : q = p
    · subst hq
      by_cases hj : j = fd
      · simp only [Files.setEntry, hj, Function.update_self, Option.some.injEq] at h
        exact Or.inl ⟨rfl, hj, h.symm⟩
      · exact Or.inr (by simpa [Files.setEntry, hj] using h)
    · exact Or.inr (by simpa [Files.setEntry, hq] using h)
  refine ⟨inv.counted, inv.refersLive, inv.one, fun q j d' h => ?_, fun q j q' j' d' h h' => ?_, inv.nextLive,
    inv.boundLive⟩
  · rcases hentry q j d' h with ⟨_, _, rfl⟩ | h
    · exact hlive
    · exact inv.slotLive q j d' h
  · rcases hentry q j d' h with ⟨rfl, rfl, rfl⟩ | hold
    · rcases hentry q' j' d' h' with ⟨rfl, rfl, _⟩ | hold'
      · exact ⟨rfl, rfl⟩
      · exact absurd hold' (hunheld q' j')
    · rcases hentry q' j' d' h' with ⟨_, _, rfl⟩ | hold'
      · exact absurd hold (hunheld q j)
      · exact inv.unique q j q' j' d' hold hold'

/-- The description in a slot is closed: its socket loses the reference. -/
theorem SocketRefs.release (inv : SocketRefs s) {p : P} {fd : Nat} {d : D} (hentry : s.entries p fd = some d)
    (hdesc : ∀ d', d' ≠ d → s'.desc d' = s.desc d') (hlive : s'.descLive = Function.update s.descLive d false)
    (hentries : s'.entries = Function.update s.entries p (Function.update (s.entries p) fd none))
    (hsocketLive : s'.socketLive = s.socketLive)
    (hbound : ∀ n k, (s'.node n).boundSocket = some k → (s.node n).boundSocket = some k)
    (hnext : ∀ k, (s'.socket k).next = (s.socket k).next)
    (hcount : ∀ k, s.refers d ≠ some (.socket k) → (s'.socket k).refCount = (s.socket k).refCount)
    (hless : ∀ k, s.refers d = some (.socket k) → (s'.socket k).refCount + 1 = (s.socket k).refCount) :
    SocketRefs s' := by
  have hrefers : s'.refers = Function.update s.refers d none := by
    funext d'
    by_cases heq : d' = d
    · simp [Files.refers, hlive, heq]
    · simp [Files.refers, hlive, heq, hdesc d' heq]
  have hslot : ∀ q j d', s'.entries q j = some d' → s.entries q j = some d' ∧ ¬(q = p ∧ j = fd) := by
    intro q j d' h
    rw [hentries] at h
    by_cases hq : q = p
    · subst hq
      by_cases hj : j = fd
      · simp [hj] at h
      · exact ⟨by simpa [hj] using h, fun hand => hj hand.2⟩
    · exact ⟨by simpa [hq] using h, fun hand => hq hand.1⟩
  constructor
  case counted =>
    intro k hk
    rw [hsocketLive] at hk
    have hold := inv.counted k hk
    by_cases heq : s.refers d = some (.socket k)
    · have hminus : s'.openOn k + 1 = s.openOn k := by
        rw [Files.openOn, hrefers]
        exact countWhere_update_sub (V := (· = some (InodeRef.socket k))) heq (by simp)
      rw [← hless k heq, ← hminus, Nat.cast_add_one] at hold
      exact ENat.add_left_injective_of_ne_top ENat.one_ne_top hold
    · have hsame : s'.openOn k = s.openOn k := by
        rw [Files.openOn, hrefers]
        exact countWhere_update_same (by simp [heq])
      rw [hcount k heq, hsame]
      exact hold
  case refersLive =>
    intro d' k hd'
    rw [hsocketLive]
    by_cases heq : d' = d
    · simp [hrefers, heq] at hd'
    · rw [hrefers, Function.update_of_ne heq] at hd'
      exact inv.refersLive d' k hd'
  case one =>
    intro d' hd'
    by_cases heq : d' = d
    · simp [hlive, heq] at hd'
    · rw [hlive, Function.update_of_ne heq] at hd'
      rw [hdesc d' heq]
      exact inv.one d' hd'
  case slotLive =>
    intro q j d' h
    obtain ⟨hold, hnot⟩ := hslot q j d' h
    have hne : d' ≠ d := by
      rintro rfl
      exact hnot (inv.unique p fd q j d' hentry hold)
    rw [hlive, Function.update_of_ne hne]
    exact inv.slotLive q j d' hold
  case unique => exact fun q j q' j' d' h h' => inv.unique q j q' j' d' (hslot q j d' h).1 (hslot q' j' d' h').1
  case nextLive =>
    intro k c hk hc
    rw [hsocketLive] at hk ⊢
    rw [hnext] at hc
    exact inv.nextLive k c hk hc
  case boundLive =>
    intro n k hk
    rw [hsocketLive]
    exact inv.boundLive n k (hbound n k hk)

/-! ### Calls -/

variable {p : P}

theorem inodeOpen_node (inv : SocketRefs s) (n : N) (flags : Nat) {choice : OpenChoice D}
    (hfresh : choice.Fresh s) :
    Ensures (inodeOpen (.node n) flags choice) s fun _ s' => SocketRefs s' ∧ s'.socketLive = s.socketLive := by
  have hunref : ∀ e : Errno, Ensures (do inodeUnref (.node n); return .error e : Kernel _ (Except Errno D)) s
      fun _ s' => SocketRefs s' ∧ s'.socketLive = s.socketLive := by
    intro e
    rw [ensures_bind]
    apply (inodeUnref_node s n).mono
    intro _ s' h
    exact ⟨h.socketRefs inv, h.socketLive⟩
  unfold inodeOpen
  rw [ensures_bind, ensures_get]
  split_ifs with hdir
  · exact hunref .EISDIR
  · cases hblock : choice.block with
    | none => exact hunref .ENOMEM
    | some d =>
        cases hhook : choice.hookError (.node n : InodeRef N S) with
        | some e => exact hunref e
        | none =>
            simp only
            exact ⟨inv.newDescNode (hfresh d hblock) n flags, rfl⟩

theorem vfsOpen_refs (inv : SocketRefs s) (path : PathOutcome N) (flags : Nat) (mode : FileType)
    {choice : OpenChoice D} (hfresh : choice.Fresh s) :
    Ensures (vfsOpen path flags mode choice) s fun _ s' => SocketRefs s' ∧ s'.socketLive = s.socketLive := by
  cases path with
  | error e => exact ⟨inv, rfl⟩
  | found n =>
      have hnode := onlyNodes_setNode s n { s.node n with refCount := (s.node n).refCount + 1 } (Or.inl rfl)
      exact inodeOpen_node (hnode.socketRefs inv) n flags hfresh
  | created n =>
      let inode : Inode S := { mode := mode, numLinks := 1, refCount := 1, boundSocket := none }
      have hset := onlyNodes_setNode s n inode (Or.inr rfl)
      have hnode : OnlyNodes s (s.newNode n inode) := ⟨⟨rfl, rfl, rfl, rfl, rfl, rfl⟩, rfl, rfl, hset.bound⟩
      exact inodeOpen_node (hnode.socketRefs inv) n flags hfresh

/-- A description of a socket is opened with a reference of its own. -/
theorem openSocket_refs (inv : SocketRefs s) {k : S} (hk : s.socketLive k = true) (flags : Nat)
    {choice : OpenChoice D} (hfresh : choice.Fresh s) :
    Ensures (do inodeRef (.socket k); inodeOpen (.socket k) flags choice : Kernel _ (Except Errno D)) s
      fun r s' => SocketRefs s' ∧ s'.socketLive = s.socketLive ∧
        ∀ d, r = .ok d → s'.descLive d = true ∧ s'.Unheld d := by
  rw [ensures_bind]
  unfold inodeRef
  rw [ensures_modify]
  unfold inodeOpen
  rw [ensures_bind, ensures_get]
  simp only [Files.IsDir, false_and, if_false]
  cases hblock : choice.block with
  | none =>
      -- the reference is given back
      simp only
      rw [ensures_bind]
      unfold inodeUnref
      rw [ensures_bind, ensures_get, ensures_bind]
      apply ensures_require.2
      intro _
      rw [ensures_bind, ensures_set]
      have hcount : (((s.setSocket k { s.socket k with refCount := (s.socket k).refCount + 1 }).socket k).refCount -
          1) = (s.socket k).refCount := by simp
      have hpos : (s.socket k).refCount ≠ 0 := by
        intro hzero
        have hcounted := (inv.counted k hk).symm
        simp [hzero] at hcounted
      rw [hcount, if_neg hpos]
      have hrefs := inv.setSocket k { s.socket k with refCount := (s.socket k).refCount } rfl
        fun c hc => inv.nextLive k c hk hc
      have hsame : (s.setSocket k { s.socket k with refCount := (s.socket k).refCount + 1 }).setSocket k
          { (s.setSocket k { s.socket k with refCount := (s.socket k).refCount + 1 }).socket k with
            refCount := (s.socket k).refCount } =
          s.setSocket k { s.socket k with refCount := (s.socket k).refCount } := by
        simp [Files.setSocket]
      rw [hsame]
      exact ⟨hrefs, rfl, by simp⟩
  | some d =>
      have hlive := hfresh d hblock
      refine ⟨inv.newDescSocket hlive hk flags, rfl, ?_⟩
      rintro d' ⟨⟩
      exact ⟨by simp [Files.newDesc], inv.unheld hlive⟩

theorem allocUnheld_refs (inv : SocketRefs s) {d : D} (hlive : s.descLive d = true) (hunheld : s.Unheld d) :
    Ensures (processAllocFileDescriptor p (-1) d) s fun _ s' =>
      SocketRefs s' ∧ s'.socketLive = s.socketLive := by
  apply (processAllocFileDescriptor_spec p (-1) d s).mono
  rintro r s' (⟨i, _, _, _, rfl, _⟩ | ⟨_, rfl, _⟩)
  · exact ⟨inv.setEntry hlive hunheld p i, rfl⟩
  · exact ⟨inv, rfl⟩

/-- A description of a socket is opened and gets a slot. -/
theorem installSocket_refs (inv : SocketRefs s) {k : S} (hk : s.socketLive k = true) {choice : OpenChoice D}
    (hfresh : choice.Fresh s) :
    Ensures (do
      inodeRef (.socket k)
      match ← inodeOpen (.socket k) O_RDWR choice with
      | .error e => return .error e
      | .ok d => processAllocFileDescriptor p (-1) d : Kernel (Files P D N S) (Except Errno Nat)) s
      fun _ s' => SocketRefs s' ∧ s'.socketLive = s.socketLive := by
  have hopen := openSocket_refs inv hk O_RDWR hfresh
  rw [ensures_bind] at hopen ⊢
  apply hopen.mono
  intro _ s₁ h
  rw [ensures_bind]
  apply h.mono
  rintro r s₂ ⟨inv₂, hsocketLive, hd⟩
  cases r with
  | error e => exact ⟨inv₂, hsocketLive⟩
  | ok d =>
      obtain ⟨hlive, hunheld⟩ := hd d rfl
      apply (allocUnheld_refs inv₂ hlive hunheld).mono
      rintro _ s₃ ⟨inv₃, hsocketLive₃⟩
      exact ⟨inv₃, hsocketLive₃.trans hsocketLive⟩

theorem sysSocket_refs (inv : SocketRefs s) (domain type : Int) {create : CreateChoice S}
    {choice : OpenChoice D} (hcreate : ∀ k, create.block = some k → s.socketLive k = false)
    (hfresh : choice.Fresh s) :
    Ensures (sysSocket p domain type create choice) s fun _ s' => SocketRefs s' ∧
      (domain = AF_UNIX → type = SOCK_STREAM → ∀ k, create.block = some k → s'.socketLive k = true) := by
  unfold sysSocket
  split_ifs with hkind
  · refine ⟨inv, fun hdomain htype => ?_⟩
    rcases hkind with h | h
    · exact absurd hdomain h
    · exact absurd htype h
  · rw [ensures_bind]
    unfold unixSocketCreate
    cases hblock : create.block with
    | none => exact ⟨inv, by simp⟩
    | some k =>
        simp only
        rw [ensures_bind, ensures_modify]
        let socket : UnixSocket D S :=
          { refCount := 1, backlog := 0, numPending := 0, next := none, connected := false, connectorFd := none }
        have inv₁ := inv.newSocket (hcreate k hblock) socket rfl rfl
        have hlive : (s.newSocket k socket).socketLive k = true := Function.update_self ..
        cases create.buffers with
        | false =>
            refine ⟨inv₁, fun _ _ k' h => ?_⟩
            cases h
            exact hlive
        | true =>
            have hfresh₁ : choice.Fresh (s.newSocket k socket) := hfresh
            have hinstall := installSocket_refs (p := p) inv₁ hlive hfresh₁
            apply hinstall.mono
            rintro _ s' ⟨inv', hsocketLive⟩
            refine ⟨inv', fun _ _ k' h => ?_⟩
            cases h
            rw [hsocketLive]
            exact hlive

/-- What `getSocket` returns is a live socket. -/
theorem getSocket_refs (inv : SocketRefs s) (sockfd : Int) :
    Ensures (getSocket p sockfd) s fun r s' => s' = s ∧
      ∀ desc k, r = .ok (desc, k) → s.socketLive k = true := by
  unfold getSocket
  rw [ensures_bind, ensures_get]
  cases hget : processGetFileDescription s p sockfd with
  | error e => exact ⟨rfl, by simp⟩
  | ok desc =>
      obtain ⟨_, _, hentry⟩ := processGetFileDescription_ok hget
      have hlive := inv.slotLive p _ desc hentry
      simp only
      split_ifs with hsock
      · cases hinode : (s.desc desc).inode with
        | node n => trivial
        | socket k =>
            refine ⟨rfl, fun desc' k' h => ?_⟩
            cases h
            exact inv.refersLive desc k (by simp [Files.refers, hlive, hinode])
      · exact ⟨rfl, by simp⟩

theorem sysBind_refs (inv : SocketRefs s) (sockfd : Int) {addr : SockAddr D N} (hfresh : addr.choice.Fresh s) :
    Ensures (sysBind p sockfd addr) s fun _ s' => SocketRefs s' := by
  unfold sysBind
  rw [ensures_bind]
  apply (getSocket_refs inv sockfd).mono
  rintro r s₁ ⟨rfl, hlive⟩
  cases r with
  | error e => exact inv
  | ok found =>
      obtain ⟨desc, k⟩ := found
      have hk := hlive desc k rfl
      simp only
      cases checkAddr addr with
      | error e => exact inv
      | ok _ =>
          simp only
          rw [ensures_bind]
          apply (vfsOpen_refs inv addr.path (O_CREAT ||| O_EXCL) .S_IFSOCK hfresh).mono
          rintro r s₂ ⟨inv₂, hsocketLive⟩
          cases r with
          | error e => exact inv₂
          | ok boundDesc =>
              simp only
              rw [ensures_bind]
              unfold setBoundSocket
              rw [ensures_bind, ensures_get]
              cases (s₂.desc boundDesc).inode with
              | socket c => exact inv₂
              | node n =>
                  refine ⟨inv₂.counted, inv₂.refersLive, inv₂.one, inv₂.slotLive, inv₂.unique, inv₂.nextLive, ?_⟩
                  intro m c hc
                  by_cases heq : m = n
                  · simp only [Files.setNode, heq, Function.update_self, Option.some.injEq] at hc
                    change s₂.socketLive c = true
                    rw [hsocketLive, ← hc]
                    exact hk
                  · simp only [Files.setNode, Function.update_of_ne heq] at hc
                    exact inv₂.boundLive m c hc

theorem sysListen_refs (inv : SocketRefs s) (sockfd backlog : Int) :
    Ensures (sysListen p sockfd backlog) s fun _ s' => SocketRefs s' := by
  unfold sysListen
  rw [ensures_bind]
  apply (getSocket_refs inv sockfd).mono
  rintro r s₁ ⟨rfl, hlive⟩
  cases r with
  | error e => exact inv
  | ok found =>
      obtain ⟨desc, k⟩ := found
      exact inv.setSocket k _ rfl fun c hc => inv.nextLive k c (hlive desc k rfl) hc

theorem unixSocketAccept_refs (inv : SocketRefs s) {listener : S} (hlive : s.socketLive listener = true) :
    Ensures (unixSocketAccept listener) s fun connector s' => SocketRefs s' ∧
      s'.socketLive = s.socketLive ∧ s'.descLive = s.descLive ∧ s.socketLive connector = true := by
  unfold unixSocketAccept
  rw [ensures_bind, ensures_get, ensures_bind]
  apply ensures_require.2
  intro _
  cases hnext : (s.socket listener).next with
  | none => trivial
  | some connector =>
      have hconnector := inv.nextLive listener connector hlive hnext
      simp only
      rw [ensures_bind, ensures_set, ensures_bind]
      apply ensures_require.2
      intro _
      let listener' : UnixSocket D S :=
        { s.socket listener with
          next := (s.socket connector).next
          numPending := wordPred (s.socket listener).numPending }
      have inv₁ := inv.setSocket listener listener' rfl fun c hc => inv.nextLive connector c hconnector hc
      let connector' : UnixSocket D S :=
        { (s.setSocket listener listener').socket connector with connected := true }
      have inv₂ := inv₁.setSocket connector connector' rfl fun c hc => inv₁.nextLive connector c hconnector hc
      exact ⟨inv₂, rfl, rfl, hconnector⟩

theorem sysAccept_refs (inv : SocketRefs s) (sockfd : Int) (interrupted : Bool) {choice : OpenChoice D}
    (hfresh : choice.Fresh s) :
    Ensures (sysAccept p sockfd interrupted choice) s fun _ s' => SocketRefs s' := by
  unfold sysAccept
  rw [ensures_bind]
  apply (getSocket_refs inv sockfd).mono
  rintro r s₁ ⟨rfl, hlive⟩
  cases r with
  | error e => exact inv
  | ok found =>
      obtain ⟨desc, listener⟩ := found
      cases interrupted with
      | true => exact inv
      | false =>
          simp only [Bool.false_eq_true, if_false]
          rw [ensures_bind]
          apply (unixSocketAccept_refs inv (hlive desc listener rfl)).mono
          rintro connector s₂ ⟨inv₂, hsocketLive, hdescLive, hconnector⟩
          have hfresh₂ : choice.Fresh s₂ := by
            intro d hd
            rw [hdescLive]
            exact hfresh d hd
          have hinstall := installSocket_refs (p := p) inv₂ (hsocketLive ▸ hconnector) hfresh₂
          apply hinstall.mono
          intro _ s₃ h
          exact h.1

theorem enqueuePendingSocket_refs (inv : SocketRefs s) {listener connector : S}
    (hlistener : s.socketLive listener = true) (hconnector : s.socketLive connector = true) (steps : Nat) :
    Ensures (enqueuePendingSocket listener connector steps) s fun _ s' => SocketRefs s' := by
  unfold enqueuePendingSocket
  rw [ensures_bind, ensures_modify, ensures_bind, ensures_get]
  let s₁ := s.setSocket connector { s.socket connector with next := none }
  have inv₁ : SocketRefs s₁ := inv.setSocket connector _ rfl (by simp)
  -- the connector becomes the first or the last one, and then it is counted
  have hlink : ∀ k, Ensures (do
      set (s₁.setSocket k { s₁.socket k with next := some connector })
      modify fun s => s.setSocket listener
        { s.socket listener with numPending := wordSucc (s.socket listener).numPending } :
          Kernel (Files P D N S) Unit) s₁ fun _ s' => SocketRefs s' := by
    intro k
    rw [ensures_bind, ensures_set]
    have inv₂ := inv₁.setSocket k { s₁.socket k with next := some connector } rfl (by
      rintro c ⟨⟩
      exact hconnector)
    exact inv₂.setSocket listener _ rfl fun c hc => inv₂.nextLive listener c hlistener hc
  cases (s₁.socket listener).next with
  | none => exact hlink listener
  | some head =>
      simp only
      cases findTail (fun k => (s₁.socket k).next) steps head with
      | none => trivial
      | some tail => exact hlink tail

theorem sysConnect_refs (inv : SocketRefs s) (sockfd : Int) {addr : SockAddr D N}
    (hfresh : addr.choice.Fresh s) (steps : Nat) (interrupted : Bool) :
    Ensures (sysConnect p sockfd addr steps interrupted) s fun _ s' => SocketRefs s' := by
  unfold sysConnect
  rw [ensures_bind]
  apply (getSocket_refs inv sockfd).mono
  rintro r s₁ ⟨rfl, hlive⟩
  cases r with
  | error e => exact inv
  | ok found =>
      obtain ⟨desc, connector⟩ := found
      have hconnector := hlive desc connector rfl
      simp only
      rw [ensures_bind, ensures_get]
      split_ifs with hconnected
      · exact inv
      · cases checkAddr addr with
        | error e => exact inv
        | ok _ =>
            simp only
            rw [ensures_bind]
            apply (vfsOpen_refs inv addr.path 0 .S_IFREG hfresh).mono
            rintro r s₂ ⟨inv₂, hsocketLive⟩
            cases r with
            | error e => exact inv₂
            | ok listenerDesc =>
                simp only
                rw [ensures_bind, ensures_get]
                cases hbound : boundSocket s₂ listenerDesc with
                | none => exact inv₂
                | some listener =>
                    have hlistener : s₂.socketLive listener = true := by
                      unfold boundSocket at hbound
                      split at hbound
                      · exact inv₂.boundLive _ listener hbound
                      · cases hbound
                    have hconnector₂ : s₂.socketLive connector = true := hsocketLive ▸ hconnector
                    simp only
                    unfold unixSocketConnect
                    rw [ensures_bind, ensures_modify, ensures_bind, ensures_get]
                    have inv₃ := inv₂.setSocket connector
                      { s₂.socket connector with connectorFd := some desc } rfl
                      fun c hc => inv₂.nextLive connector c hconnector₂ hc
                    split
                    · exact inv₃
                    · rw [ensures_bind]
                      apply (enqueuePendingSocket_refs inv₃ hlistener hconnector₂ steps).mono
                      intro _ s₄ inv₄
                      cases interrupted with
                      | true => exact inv₄
                      | false => exact inv₄

theorem sysClose_refs (inv : SocketRefs s) (fd : Int) :
    Ensures (sysClose p fd) s fun _ s' => SocketRefs s' := by
  unfold sysClose
  rw [ensures_bind, ensures_get]
  cases hget : processGetFileDescription s p fd with
  | error e => exact inv
  | ok d =>
      obtain ⟨hfd, hmax, hentry⟩ := processGetFileDescription_ok hget
      have hlive := inv.slotLive p _ d hentry
      have hone := inv.one d hlive
      have hrefers : s.refers d = some (s.desc d).inode := if_pos hlive
      simp only
      rw [ensures_bind]
      unfold fileDescriptionClose
      rw [ensures_bind, ensures_get, ensures_bind]
      apply ensures_require.2
      intro _
      rw [ensures_bind, ensures_set, if_neg (by omega : ¬(s.desc d).refCount - 1 > 0), ensures_bind,
        ensures_modify]
      let s₁ := (s.setRefCount d ((s.desc d).refCount - 1)).freeDesc d
      have hdesc : ∀ d', d' ≠ d → s₁.desc d' = s.desc d' := fun d' hne => Function.update_of_ne hne ..
      have hfree : ∀ s₂ : Files P D N S, SameDescriptions s₁ s₂ →
          (SocketRefs (s₂.setEntry p fd.toNat none)) →
          Ensures (processFreeFileDescriptor p fd) s₂ fun _ s' => SocketRefs s' := by
        intro s₂ hsame hrefs
        have hentry₂ : s₂.entries p fd.toNat = some d := by
          rw [hsame.entries]
          exact hentry
        apply (processFreeFileDescriptor_spec hfd hmax hentry₂).mono
        rintro _ s' ⟨_, rfl⟩
        exact hrefs
      cases hinode : (s.desc d).inode with
      | node n =>
          apply (inodeUnref_node s₁ n).mono
          intro _ s₂ honly
          apply hfree s₂ honly.same
          refine inv.release hentry (fun d' hne => ?_) honly.same.descLive ?_ honly.socketLive honly.bound
            (fun k => ?_) (fun k _ => ?_) fun k h => ?_
          · exact (congrFun honly.same.desc d').trans (hdesc d' hne)
          · simp only [Files.setEntry, honly.same.entries]
            rfl
          · exact congrArg UnixSocket.next (congrFun honly.socket k)
          · exact congrArg UnixSocket.refCount (congrFun honly.socket k)
          · simp [hrefers, hinode] at h
      | socket k =>
          have hk := inv.refersLive d k (by rw [hrefers, hinode])
          have hpos : 2 ≤ (s.socket k).refCount := by
            have hcounted := inv.counted k hk
            have hmem : 0 < s.openOn k := countWhere_pos (V := (· = some (InodeRef.socket k)))
              (by rw [hrefers, hinode])
            have hle : ((2 : ℕ) : ℕ∞) ≤ (s.socket k).refCount := by
              rw [hcounted]
              exact add_le_add (Order.one_le_iff_pos.2 hmem) le_rfl
            exact_mod_cast hle
          unfold inodeUnref
          rw [ensures_bind, ensures_get, ensures_bind]
          apply ensures_require.2
          intro _
          have hcount : (s₁.socket k).refCount - 1 ≠ 0 := by
            change (s.socket k).refCount - 1 ≠ 0
            omega
          rw [ensures_bind, ensures_set, if_neg hcount, ensures_pure]
          apply hfree (s₁.setSocket k { s₁.socket k with refCount := (s₁.socket k).refCount - 1 })
            ⟨rfl, rfl, rfl, rfl, rfl, rfl⟩
          refine inv.release hentry hdesc rfl rfl rfl (fun _ _ h => h) (fun c => ?_) (fun c h => ?_) fun c h => ?_
          · by_cases heq : c = k
            · subst heq
              simp [Files.setEntry, Files.setSocket]
              rfl
            · simp [Files.setEntry, Files.setSocket, heq]
              rfl
          · have hne : c ≠ k := by
              rintro rfl
              exact h (by rw [hrefers, hinode])
            simp [Files.setEntry, Files.setSocket, hne]
            rfl
          · rw [hrefers, hinode] at h
            cases h
            simp only [Files.setEntry, Files.setSocket, Function.update_self]
            change (s.socket k).refCount - 1 + 1 = (s.socket k).refCount
            omega

end Invariant

/-! ### Runs -/

section Runs

variable {P D N S : Type} [DecidableEq P] [DecidableEq D] [DecidableEq N] [DecidableEq S]
  {s s' : Files P D N S} {e : SocketCallEvent P D N S}

theorem socketRefs_step (inv : SocketRefs s) (hstep : (socketSystem P D N S).step s e s') : SocketRefs s' := by
  obtain ⟨_, hfresh, hrun⟩ := hstep
  cases hcall : e.call with
  | socket domain type create choice =>
      rw [hcall] at hfresh hrun
      exact (ensures_iff.1 (sysSocket_refs inv domain type hfresh.1 hfresh.2) _ _ hrun).1
  | bind sockfd addr =>
      rw [hcall] at hfresh hrun
      exact ensures_iff.1 (sysBind_refs inv sockfd hfresh.2) _ _ hrun
  | listen sockfd backlog =>
      rw [hcall] at hrun
      exact ensures_iff.1 (sysListen_refs inv sockfd backlog) _ _ hrun
  | connect sockfd addr steps interrupted =>
      rw [hcall] at hfresh hrun
      exact ensures_iff.1 (sysConnect_refs inv sockfd hfresh.2 steps interrupted) _ _ hrun
  | accept sockfd interrupted choice =>
      rw [hcall] at hfresh hrun
      exact ensures_iff.1 (sysAccept_refs inv sockfd interrupted hfresh) _ _ hrun
  | close fd =>
      rw [hcall] at hrun
      exact ensures_iff.1 (sysClose_refs inv fd) _ _ hrun

/-- A call that creates a socket leaves one that is counted too often. -/
theorem creates_breaks (inv : SocketRefs s) (hstep : (socketSystem P D N S).step s e s')
    (hcreates : e.call.Creates) : ¬SocketsReleased s' := by
  have inv' := socketRefs_step inv hstep
  obtain ⟨_, hfresh, hrun⟩ := hstep
  cases hcall : e.call with
  | socket domain type create choice =>
      rw [hcall] at hcreates hfresh hrun
      obtain ⟨hdomain, htype, hblock⟩ := hcreates
      obtain ⟨k, hk⟩ := Option.ne_none_iff_exists'.1 hblock
      have hlive := (ensures_iff.1 (sysSocket_refs inv domain type hfresh.1 hfresh.2) _ _ hrun).2 hdomain htype k hk
      intro hreleased
      have hone := inv'.counted k hlive
      rw [← hreleased k hlive] at hone
      have hnat : (s'.socket k).refCount = (s'.socket k).refCount + 1 := by exact_mod_cast hone
      omega
  | _ =>
      rw [hcall] at hcreates
      exact absurd hcreates id

/-- Before the first socket there is no description at all. -/
structure NoSockets (s : Files P D N S) : Prop where
  entries : ∀ p fd, s.entries p fd = none
  descLive : ∀ d, s.descLive d = false
  socketLive : ∀ k, s.socketLive k = false
  bound : ∀ n, (s.node n).boundSocket = none

theorem NoSockets.socketRefs (h : NoSockets s) : SocketRefs s := by
  refine ⟨fun k hk => ?_, fun d k hd => ?_, fun d hd => ?_, fun p fd d hd => ?_, fun p fd _ _ d hd => ?_,
    fun k _ hk => ?_, fun n k hk => ?_⟩
  · simp [h.socketLive] at hk
  · simp [Files.refers, h.descLive] at hd
  · simp [h.descLive] at hd
  · simp [h.entries] at hd
  · simp [h.entries] at hd
  · simp [h.socketLive] at hk
  · simp [h.bound] at hk

theorem NoSockets.get (h : NoSockets s) (p : P) (fd : Int) : processGetFileDescription s p fd = .error .EBADF := by
  unfold processGetFileDescription
  split_ifs
  · rfl
  · rw [h.entries]

/-- Without a socket no call on sockets changes anything. -/
theorem NoSockets.step (h : NoSockets s) (hstep : (socketSystem P D N S).step s e s')
    (hcreates : ¬e.call.Creates) : s' = s := by
  obtain ⟨p, call, result⟩ := e
  obtain ⟨_, _, hrun⟩ := hstep
  have hget : ∀ (p : P) (fd : Int), (getSocket p fd : Kernel (Files P D N S) _) s = .ok (.error .EBADF, s) := by
    intro p fd
    simp [getSocket, h.get]
  cases call with
  | socket domain type create choice =>
      simp only [SocketCall.run, sysSocket] at hrun
      split_ifs at hrun with hkind
      · cases hrun
        rfl
      · have hdomain : domain = AF_UNIX := by_contra fun hne => hkind (Or.inl hne)
        have htype : type = SOCK_STREAM := by_contra fun hne => hkind (Or.inr hne)
        have hblock : create.block = none := by_contra fun hne => hcreates ⟨hdomain, htype, hne⟩
        simp only [unixSocketCreate, hblock, Program.run_bind, Program.run_pure] at hrun
        cases hrun
        rfl
  | bind sockfd addr =>
      simp only [SocketCall.run, sysBind, Program.run_bind, hget, Program.run_pure] at hrun
      cases hrun
      rfl
  | listen sockfd backlog =>
      simp only [SocketCall.run, sysListen, Program.run_bind, hget, Program.run_pure] at hrun
      cases hrun
      rfl
  | connect sockfd addr steps interrupted =>
      simp only [SocketCall.run, sysConnect, Program.run_bind, hget, Program.run_pure] at hrun
      cases hrun
      rfl
  | accept sockfd interrupted choice =>
      simp only [SocketCall.run, sysAccept, Program.run_bind, hget, Program.run_pure] at hrun
      cases hrun
      rfl
  | close fd =>
      simp only [SocketCall.run, sysClose, Program.run_bind, Program.run_get, h.get, Program.run_pure] at hrun
      cases hrun
      rfl

theorem NoSockets.released (h : NoSockets s) (call : SocketCall D N S) :
    SocketsReleased s ∧ LeavesNone call s s := by
  refine ⟨fun k hk => ?_, ?_⟩
  · simp [h.socketLive] at hk
  · cases call with
    | bind _ _ => exact fun d hd => Or.inl hd
    | connect _ _ _ _ => exact fun d hd => Or.inl hd
    | _ => trivial

theorem noSockets_initial (hs : (socketSystem P D N S).init s) : NoSockets s := by
  obtain ⟨⟨hentries, hdescs, hsockets⟩, hbound⟩ := hs
  exact ⟨hentries, fun d => (hdescs d).1, hsockets, hbound⟩

/-- Sockets over runs: the sockets are released and no description is left behind in every state of a run
    exactly when no call of the run creates a socket. Whatever the run, each socket is counted once more than
    descriptions refer to it, so that it is never released. -/
theorem socket_release_iff {s t : Files P D N S}
    {xs : List (Transition (Files P D N S) (SocketCallEvent P D N S))} (hinit : (socketSystem P D N S).init s)
    (run : (socketSystem P D N S).Run s xs t) :
    ((∀ x ∈ xs, SocketsReleased x.after ∧ LeavesNone x.event.call x.before x.after) ↔
        ∀ x ∈ xs, ¬x.event.call.Creates) ∧
      ∀ k, t.socketLive k = true → ((t.socket k).refCount : ℕ∞) = t.openOn k + 1 := by
  have hstart := noSockets_initial hinit
  constructor
  · have hkeeps : ∀ (u : Files P D N S) (e : SocketCallEvent P D N S) u', NoSockets u → ¬e.call.Creates →
        (socketSystem P D N S).step u e u' → NoSockets u' := by
      intro u e u' hu hnot hstep
      rw [hu.step hstep hnot]
      exact hu
    have hsound : ∀ (u : Files P D N S) (e : SocketCallEvent P D N S) u', NoSockets u → ¬e.call.Creates →
        (socketSystem P D N S).step u e u' → SocketsReleased u' ∧ LeavesNone e.call u u' := by
      intro u e u' hu hnot hstep
      rw [hu.step hstep hnot]
      exact hu.released e.call
    exact run.guarded_iff (fun s e s' => SocketsReleased s' ∧ LeavesNone e.call s s') hkeeps hsound
      (fun u e u' hu hstep hholds hcreates => creates_breaks hu.socketRefs hstep hcreates hholds.1) hstart
  · have inv := run.invariant SocketRefs (fun _ _ _ inv hstep => socketRefs_step inv hstep) hstart.socketRefs
    exact inv.counted

/-- A process creates a socket: it is counted twice for one description. -/
theorem socket_release_iff_after_socket :
    ∃ xs t, (socketSystem Nat Nat Nat Nat).Run oneProcess xs t ∧
      ¬(∀ x ∈ xs, SocketsReleased x.after ∧ LeavesNone x.event.call x.before x.after) := by
  let call : SocketCall Nat Nat Nat :=
    .socket AF_UNIX SOCK_STREAM { block := some 0, buffers := true } { block := some 0, openError := none }
  have hsocket : ∃ t, call.run 2 oneProcess = Except.ok (Except.ok 0, t) := ⟨_, rfl⟩
  obtain ⟨t, hrun⟩ := hsocket
  have hfresh : call.Fresh oneProcess := ⟨fun _ _ => rfl, fun _ _ => rfl⟩
  have run : (socketSystem Nat Nat Nat Nat).Run oneProcess [⟨oneProcess, ⟨2, call, .ok 0⟩, t⟩] t :=
    .cons ⟨rfl, hfresh, hrun⟩ (.nil t)
  have hinit : (socketSystem Nat Nat Nat Nat).init oneProcess := ⟨oneProcess_initial, fun _ => rfl⟩
  refine ⟨_, t, run, fun h => ?_⟩
  have hnone := (socket_release_iff hinit run).1.1 h _ (List.mem_singleton_self _)
  exact hnone ⟨rfl, rfl, by decide⟩

/-- A socket that has just been created is not released with its description. -/
theorem sysSocket_counts_twice :
    ¬ ∀ (s : Files Nat Nat Nat Nat) xs t, (socketSystem Nat Nat Nat Nat).init s →
      (socketSystem Nat Nat Nat Nat).Run s xs t →
      (∀ x ∈ xs, SocketsReleased x.after ∧ LeavesNone x.event.call x.before x.after) := by
  intro h
  let call : SocketCall Nat Nat Nat :=
    .socket AF_UNIX SOCK_STREAM { block := some 0, buffers := true } { block := some 0, openError := none }
  have hsocket : ∃ t, call.run 2 oneProcess = Except.ok (Except.ok 0, t) := ⟨_, rfl⟩
  obtain ⟨t, hrun⟩ := hsocket
  have hfresh : call.Fresh oneProcess := ⟨fun _ _ => rfl, fun _ _ => rfl⟩
  have hinit : (socketSystem Nat Nat Nat Nat).init oneProcess := ⟨oneProcess_initial, fun _ => rfl⟩
  have hstep : (socketSystem Nat Nat Nat Nat).step oneProcess ⟨2, call, .ok 0⟩ t := ⟨rfl, hfresh, hrun⟩
  have hreleased := h oneProcess _ t hinit (.cons hstep (.nil t)) _ (List.mem_singleton_self _)
  exact creates_breaks (noSockets_initial hinit).socketRefs hstep ⟨rfl, rfl, by decide⟩ hreleased.1

end Runs

end Chaotix
