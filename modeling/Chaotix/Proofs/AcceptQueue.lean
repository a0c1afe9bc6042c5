/-
Module: Chaotix.Proofs.AcceptQueue
Layer: Proofs
Purpose: The queue of a listening socket over runs. The polls outside the lock decide nothing by
  themselves: two acceptors can pass on one pending connector, and two connectors can pass on the last
  free place. In the runs in which an acceptor only passes when the queue has a connector for it and a
  connector only passes when the backlog has a place for it, counting those that have passed before, the
  queue is first in, first out, is never taken from when it is empty, and never exceeds the backlog.
  `num_pending` equals its length, up to the connectors and acceptors between a section and its count.
Imports: Mathlib.Tactic, Chaotix.Lib.Count, Chaotix.Kernel.SocketQueue
Trusted boundary: none
Main exports: AcceptGuard, AcceptQueueIntegrity, AcceptInvariant, acceptInvariant_step,
  accept_queue_is_fifo
-/
import Mathlib.Tactic
import Chaotix.Lib.Count
import Chaotix.Kernel.SocketQueue

namespace Chaotix

section Definitions

variable {C A : Type} [DecidableEq C] [DecidableEq A]

/-- The connector an accepting process has taken and not yet returned. -/
def AcceptPc.connector : AcceptPc C → Option C
  | .dequeued c | .counted c | .asserted c => some c
  | _ => none

/-- The connector will not enter the section of `enqueue_pending` any more. -/
def ConnectPc.Entered : ConnectPc → Prop
  | .enqueued | .blocked | .returned => True
  | .outside | .checked => False

namespace Listener

/-- The queue is the list of these connectors. -/
def Queue (s : Listener C A) (q : List C) : Prop := LinkedList s.next s.pending q

/-- How many acceptors have passed their poll and not yet entered the section. -/
noncomputable def polled (s : Listener C A) : ℕ∞ := countWhere (· = .polled) s.acceptPc

/-- How many connectors have passed their check and not yet entered the section. -/
noncomputable def checked (s : Listener C A) : ℕ∞ := countWhere (· = .checked) s.connectPc

/-- No operation is in the middle of an update. -/
def Quiet (s : Listener C A) : Prop :=
  (∀ c, s.connectPc c ≠ .checked ∧ s.connectPc c ≠ .enqueued) ∧
    ∀ a, s.acceptPc a = .outside ∨ s.acceptPc a = .blocked

end Listener

/-- An acceptor passes only when there are more connectors in the queue than acceptors that have passed
    before it, and a connector only when there are more places than connectors that have passed. -/
def AcceptGuard (s : Listener C A) : ListenerEvent C A → Prop
  | .acceptPoll _ => ∀ q, s.Queue q → s.polled < q.length
  | .connectCheck _ => ∀ q, s.Queue q → s.checked + q.length < s.backlog
  | _ => True

namespace ListenerEvent

/-- The connector that a step puts into the queue. -/
def enqueued : ListenerEvent C A → List C
  | .enqueue c => [c]
  | _ => []

/-- The connector that a step takes from the queue. -/
def dequeued : ListenerEvent C A → List C
  | .deque _ c => [c]
  | _ => []

/-- The connector that a step returns from `accept`. -/
def returned : ListenerEvent C A → List C
  | .acceptReturn _ c => [c]
  | _ => []

/-- The connector that a process takes from the queue. -/
def dequeuedBy (a : A) : ListenerEvent C A → List C
  | .deque b c => if b = a then [c] else []
  | _ => []

/-- The connector that `accept` returns to a process. -/
def returnedBy (a : A) : ListenerEvent C A → List C
  | .acceptReturn b c => if b = a then [c] else []
  | _ => []

end ListenerEvent

/-- What a run keeps. Connectors leave the queue in the order in which they entered it, each accept
    returns the connectors it took, and no connector is returned twice; nobody takes from an empty
    queue; the count is right between the operations, and the backlog is kept. -/
structure AcceptQueueIntegrity (xs : List (Transition (Listener C A) (ListenerEvent C A)))
    (t : Listener C A) : Prop where
  fifo : ∃ q, t.Queue q ∧
    xs.flatMap (fun x => x.event.enqueued) = xs.flatMap (fun x => x.event.dequeued) ++ q ∧
      q.length ≤ t.backlog ∧ (t.Quiet → t.numPending = q.length)
  once : (xs.flatMap fun x => x.event.enqueued).Nodup
  returns : ∀ a, xs.flatMap (fun x => x.event.returnedBy a) <+: xs.flatMap fun x => x.event.dequeuedBy a
  returnsOnce : (xs.flatMap fun x => x.event.returned).Nodup
  notEmpty : ∀ x ∈ xs, ∀ a, x.event ≠ .dequeNull a

/-! ### The invariant -/

/-- The queue with what is promised to the acceptors and connectors that have passed. -/
structure AcceptInvariant (s : Listener C A) (q : List C) : Prop where
  queue : s.Queue q
  nodup : q.Nodup
  members : ∀ c ∈ q, c ∈ s.sockets ∧ (s.connectPc c).Entered ∧ s.connected c = false
  sockets : ∀ c, s.connectPc c = .checked → c ∈ s.sockets
  polled : s.polled ≤ q.length
  checked : s.checked + q.length ≤ s.backlog
  backlog : s.backlog < wordSize
  connected : ∀ c, s.connected c = true → (s.connectPc c).Entered
  held : ∀ a c, (s.acceptPc a).connector = some c →
    c ∉ q ∧ (s.connectPc c).Entered ∧ s.connected c = false
  holder : ∀ a b c, (s.acceptPc a).connector = some c → (s.acceptPc b).connector = some c → a = b

/-- `num_pending`, up to what is between a section and its update of the count. -/
def PendingCount (s : Listener C A) (q : List C) : Prop :=
  s.numPending < wordSize ∧ ∃ enqueued dequeued : Nat,
    countWhere (· = .enqueued) s.connectPc = enqueued ∧
      countWhere (fun pc => ∃ c, pc = .dequeued c) s.acceptPc = dequeued ∧
      (s.numPending + enqueued) % wordSize = (q.length + dequeued) % wordSize

end Definitions

/-! ### Steps of a connector -/

section Connectors

variable {C A : Type} {s : Listener C A} {q : List C}

theorem AcceptInvariant.setNumPending (inv : AcceptInvariant s q) (n : Nat) :
    AcceptInvariant { s with numPending := n } q :=
  ⟨inv.1, inv.2, inv.3, inv.4, inv.5, inv.6, inv.7, inv.8, inv.9, inv.10⟩

variable [DecidableEq C]

/-- A connector goes on, and does not come back to its check. -/
theorem AcceptInvariant.setConnect (inv : AcceptInvariant s q) {c : C} {pc : ConnectPc}
    (hentered : (s.connectPc c).Entered → pc.Entered) (hsockets : pc = .checked → c ∈ s.sockets)
    (hchecked : (s.setConnect c pc).checked + q.length ≤ s.backlog) :
    AcceptInvariant (s.setConnect c pc) q := by
  have hkeeps : ∀ x, (s.connectPc x).Entered → ((s.setConnect c pc).connectPc x).Entered := by
    intro x hx
    by_cases heq : x = c
    · subst heq
      simpa [Listener.setConnect] using hentered hx
    · simpa [Listener.setConnect, Function.update_of_ne heq] using hx
  refine ⟨inv.queue, inv.nodup, ?_, ?_, inv.polled, hchecked, inv.backlog, ?_, ?_, inv.holder⟩
  · intro x hx
    obtain ⟨hmem, hpc, hconnected⟩ := inv.members x hx
    exact ⟨hmem, hkeeps x hpc, hconnected⟩
  · intro x hx
    by_cases heq : x = c
    · subst heq
      exact hsockets (by simpa [Listener.setConnect] using hx)
    · exact inv.sockets x (by simpa [Listener.setConnect, Function.update_of_ne heq] using hx)
  · exact fun x hx => hkeeps x (inv.connected x hx)
  · intro a x hx
    obtain ⟨hmem, hpc, hconnected⟩ := inv.held a x hx
    exact ⟨hmem, hkeeps x hpc, hconnected⟩

theorem AcceptInvariant.setConnect_unchecked (inv : AcceptInvariant s q) {c : C} {pc : ConnectPc}
    (hpc : pc ≠ .checked) (hentered : (s.connectPc c).Entered → pc.Entered) :
    AcceptInvariant (s.setConnect c pc) q := by
  apply inv.setConnect hentered (fun h => absurd h hpc)
  have hle : (s.setConnect c pc).checked ≤ s.checked := countWhere_update_le fun h => absurd h hpc
  exact (add_le_add_left hle _).trans inv.checked

/-- The section of `enqueue_pending` only changes links. -/
theorem enqueuePending_ok {s' : Listener C A} {c : C} (h : enqueuePending s c = .ok s') :
    ∃ head next, s' = { s with pending := head, next := next } := by
  unfold enqueuePending at h
  split at h
  · exact ⟨_, _, (Except.ok.inj h).symm⟩
  · simp only at h
    split at h
    · exact ⟨s.pending, _, (Except.ok.inj h).symm⟩
    · simp at h

/-- The section of `enqueue_pending` returns and appends. -/
theorem AcceptInvariant.enqueuePending (inv : AcceptInvariant s q) {c : C} (hc : c ∉ q) :
    ∃ head next, enqueuePending s c = .ok { s with pending := head, next := next } ∧
      LinkedList next head (q ++ [c]) := by
  unfold Chaotix.enqueuePending
  have hqueue := inv.queue
  unfold Listener.Queue at hqueue
  cases hpending : s.pending with
  | none =>
      rw [hpending] at hqueue
      obtain rfl := LinkedList.nil_iff.1 hqueue
      exact ⟨_, _, rfl, rfl, by simp [LinkedList]⟩
  | some head =>
      rw [hpending] at hqueue
      have hne : q ≠ [] := by
        rintro rfl
        simp [LinkedList] at hqueue
      have hcleared : LinkedList (Function.update s.next c none) (some head) q := by
        apply hqueue.congr
        intro x hx
        have hne : x ≠ c := fun heq => hc (heq ▸ hx)
        exact Function.update_of_ne hne _ _
      have hlength : q.length ≤ s.sockets.length :=
        (inv.nodup.subperm fun x hx => (inv.members x hx).1).length_le
      simp only [findTail_eq hcleared hne hlength]
      exact ⟨_, _, rfl, hqueue.append hne inv.nodup hc⟩

theorem AcceptInvariant.enqueue (inv : AcceptInvariant s q) {s' : Listener C A} {c : C}
    (hpc : s.connectPc c = .checked) (hrun : Chaotix.enqueuePending s c = .ok s') :
    AcceptInvariant (s'.setConnect c .enqueued) (q ++ [c]) := by
  have hc : c ∉ q := by
    intro hmem
    have hentered := (inv.members c hmem).2.1
    rw [hpc] at hentered
    exact hentered
  have hconnected : s.connected c = false := by
    cases h : s.connected c with
    | false => rfl
    | true =>
        have hentered := inv.connected c h
        rw [hpc] at hentered
        exact absurd hentered id
  obtain ⟨head, next, hok, hqueue⟩ := inv.enqueuePending hc
  obtain rfl := Except.ok.inj (hok.symm.trans hrun)
  have hkeeps : ∀ x, (s.connectPc x).Entered → (Function.update s.connectPc c .enqueued x).Entered := by
    intro x hx
    by_cases heq : x = c
    · simp [heq, ConnectPc.Entered]
    · simpa [Function.update_of_ne heq] using hx
  refine ⟨hqueue, ?_, ?_, ?_, ?_, ?_, inv.backlog, fun x hx => hkeeps x (inv.connected x hx), ?_, inv.holder⟩
  · exact List.nodup_append.2 ⟨inv.nodup, List.nodup_singleton c, by
      rintro x hx y hy rfl
      exact hc (List.mem_singleton.1 hy ▸ hx)⟩
  · intro x hx
    rcases List.mem_append.1 hx with hx | hx
    · obtain ⟨hsocket, hpcs, hconnected'⟩ := inv.members x hx
      exact ⟨hsocket, hkeeps x hpcs, hconnected'⟩
    · obtain rfl := List.mem_singleton.1 hx
      exact ⟨inv.sockets x hpc, by simp [Listener.setConnect, ConnectPc.Entered], hconnected⟩
  · intro x hx
    by_cases heq : x = c
    · simp [heq, Listener.setConnect] at hx
    · exact inv.sockets x (by simpa [Listener.setConnect, Function.update_of_ne heq] using hx)
  · apply inv.polled.trans
    rw [List.length_append]
    exact_mod_cast Nat.le_add_right _ _
  · have hless : countWhere (· = .checked) (Function.update s.connectPc c .enqueued) + 1 = s.checked :=
      countWhere_update_sub hpc (by simp)
    have hle := inv.checked
    rw [← hless, add_right_comm] at hle
    rw [List.length_append, List.length_singleton, Nat.cast_add, Nat.cast_one, ← add_assoc]
    exact hle
  · intro a x hx
    obtain ⟨hnot, hpcs, hconnected'⟩ := inv.held a x hx
    refine ⟨?_, hkeeps x hpcs, hconnected'⟩
    intro hx'
    rcases List.mem_append.1 hx' with hx' | hx'
    · exact hnot hx'
    · obtain rfl := List.mem_singleton.1 hx'
      rw [hpc] at hpcs
      exact hpcs

end Connectors

/-! ### Steps of an accepting process -/

section Acceptors

variable {C A : Type} {s : Listener C A} {q : List C}

/-- The section of `deque_pending` only changes the head. -/
theorem dequePending_ok {s' : Listener C A} {c : C} (h : dequePending s = .ok (c, s')) :
    ∃ head, s' = { s with pending := head } := by
  unfold dequePending at h
  split at h
  · simp at h
  · simp only [Except.ok.injEq, Prod.mk.injEq] at h
    exact ⟨_, h.2.symm⟩

/-- The queue is not empty for an acceptor that has passed its poll. -/
theorem AcceptInvariant.dequePending_ne_error (inv : AcceptInvariant s q) {a : A}
    (hpc : s.acceptPc a = .polled) : dequePending s ≠ .error .fault := by
  unfold dequePending
  have hqueue := inv.queue
  unfold Listener.Queue at hqueue
  cases hpending : s.pending with
  | none =>
      rw [hpending] at hqueue
      obtain rfl := LinkedList.nil_iff.1 hqueue
      have hempty : countWhere (· = .polled) s.acceptPc = 0 := by
        simpa [Listener.polled] using inv.polled
      have hpos : 0 < countWhere (· = .polled) s.acceptPc := countWhere_pos hpc
      rw [hempty] at hpos
      exact absurd hpos (lt_irrefl 0)
  | some c => simp

variable [DecidableEq A]

/-- An accepting process goes on with the connector it has, or without one. -/
theorem AcceptInvariant.setAccept (inv : AcceptInvariant s q) {a : A} {pc : AcceptPc C}
    (hconnector : ∀ c, pc.connector = some c → (s.acceptPc a).connector = some c)
    (hpolled : (s.setAccept a pc).polled ≤ q.length) : AcceptInvariant (s.setAccept a pc) q := by
  have hold : ∀ b c, ((s.setAccept a pc).acceptPc b).connector = some c →
      (s.acceptPc b).connector = some c := by
    intro b c hb
    by_cases heq : b = a
    · subst heq
      exact hconnector c (by simpa [Listener.setAccept] using hb)
    · simpa [Listener.setAccept, Function.update_of_ne heq] using hb
  exact ⟨inv.queue, inv.nodup, inv.members, inv.sockets, hpolled, inv.checked, inv.backlog, inv.connected,
    fun b c hb => inv.held b c (hold b c hb),
    fun b b' c hb hb' => inv.holder b b' c (hold b c hb) (hold b' c hb')⟩

theorem AcceptInvariant.setAccept_unpolled (inv : AcceptInvariant s q) {a : A} (pc : AcceptPc C)
    (hpc : pc ≠ .polled) (hconnector : ∀ c, pc.connector = some c → (s.acceptPc a).connector = some c) :
    AcceptInvariant (s.setAccept a pc) q := by
  apply inv.setAccept hconnector
  have hle : (s.setAccept a pc).polled ≤ s.polled := countWhere_update_le fun h => absurd h hpc
  exact hle.trans inv.polled

/-- The section of `deque_pending` takes the first connector. -/
theorem AcceptInvariant.deque (inv : AcceptInvariant s q) {s' : Listener C A} {a : A} {c : C}
    (hpc : s.acceptPc a = .polled) (hrun : dequePending s = .ok (c, s')) :
    ∃ q', q = c :: q' ∧ AcceptInvariant (s'.setAccept a (.dequeued c)) q' := by
  unfold dequePending at hrun
  have hqueue := inv.queue
  unfold Listener.Queue at hqueue
  cases hpending : s.pending with
  | none => simp [hpending] at hrun
  | some head =>
      simp only [hpending, Except.ok.injEq, Prod.mk.injEq] at hrun
      obtain ⟨rfl, rfl⟩ := hrun
      rw [hpending] at hqueue
      obtain ⟨q', rfl, hrest⟩ := hqueue.exists_cons
      have hnodup := List.nodup_cons.1 inv.nodup
      have hhead := inv.members head List.mem_cons_self
      have hold : ∀ b x, (Function.update s.acceptPc a (.dequeued head) b).connector = some x →
          b = a ∧ x = head ∨ b ≠ a ∧ (s.acceptPc b).connector = some x := by
        intro b x hb
        by_cases heq : b = a
        · subst heq
          exact Or.inl ⟨rfl, by simpa [AcceptPc.connector] using hb.symm⟩
        · exact Or.inr ⟨heq, by simpa [Function.update_of_ne heq] using hb⟩
      refine ⟨q', rfl, hrest, hnodup.2, fun x hx => inv.members x (List.mem_cons_of_mem head hx), inv.sockets,
        ?_, ?_, inv.backlog, inv.connected, ?_, ?_⟩
      · have hless : countWhere (· = .polled) (Function.update s.acceptPc a (.dequeued head)) + 1 = s.polled :=
          countWhere_update_sub hpc (by simp)
        have hle := inv.polled
        rw [← hless, List.length_cons, Nat.cast_add, Nat.cast_one] at hle
        exact (ENat.add_le_add_iff_right ENat.one_ne_top).1 hle
      · apply le_trans _ inv.checked
        rw [List.length_cons, Nat.cast_add]
        exact add_le_add_right le_self_add _
      · intro b x hb
        rcases hold b x hb with ⟨_, rfl⟩ | ⟨_, hb⟩
        · exact ⟨hnodup.1, hhead.2⟩
        · obtain ⟨hnot, hrest'⟩ := inv.held b x hb
          exact ⟨fun hx => hnot (List.mem_cons_of_mem head hx), hrest'⟩
      · intro b b' x hb hb'
        rcases hold b x hb with ⟨rfl, rfl⟩ | ⟨_, hkept⟩
        · rcases hold b' x hb' with ⟨rfl, _⟩ | ⟨_, hkept'⟩
          · rfl
          · exact absurd List.mem_cons_self (inv.held b' x hkept').1
        · rcases hold b' x hb' with ⟨rfl, rfl⟩ | ⟨_, hkept'⟩
          · exact absurd List.mem_cons_self (inv.held b x hkept).1
          · exact inv.holder b b' x hkept hkept'

/-- Marking the connector that a process returns. -/
theorem AcceptInvariant.acceptReturn [DecidableEq C] (inv : AcceptInvariant s q) {a : A} {c : C}
    (hpc : s.acceptPc a = .asserted c) :
    AcceptInvariant ({ s with connected := Function.update s.connected c true }.setAccept a .outside) q := by
  have hheld := inv.held a c (by simp [hpc, AcceptPc.connector])
  have hother : ∀ x, x ≠ c → Function.update s.connected c true x = s.connected x := fun x hne =>
    Function.update_of_ne hne _ _
  have inv' := inv.setAccept_unpolled (a := a) .outside (by simp) (by simp [AcceptPc.connector])
  refine ⟨inv'.1, inv'.2, ?_, inv'.4, inv'.5, inv'.6, inv'.7, ?_, ?_, inv'.10⟩
  · intro x hx
    have hne : x ≠ c := fun heq => hheld.1 (heq ▸ hx)
    simpa [Listener.setAccept, hother x hne] using inv.members x hx
  · intro x hx
    by_cases heq : x = c
    · exact heq ▸ hheld.2.1
    · exact inv.connected x (by simpa [Listener.setAccept, hother x heq] using hx)
  · intro b x hb
    have hne : b ≠ a := by
      rintro rfl
      simp [Listener.setAccept, AcceptPc.connector] at hb
    have hb' : (s.acceptPc b).connector = some x := by
      simpa [Listener.setAccept, Function.update_of_ne hne] using hb
    have hx : x ≠ c := by
      rintro rfl
      exact hne (inv.holder b a x hb' (by simp [hpc, AcceptPc.connector]))
    simpa [Listener.setAccept, hother x hx] using inv.held b x hb'

end Acceptors

/-! ### Steps and runs -/

section Runs

variable {C A : Type}

/-- Nobody has passed anything. -/
theorem acceptInvariant_initial {backlog : Nat} (hbacklog : backlog < wordSize) (sockets : List C) :
    AcceptInvariant (Listener.initial (A := A) backlog sockets) [] ∧
      PendingCount (Listener.initial (A := A) backlog sockets) [] := by
  have hpolled : (Listener.initial (A := A) backlog sockets).polled = 0 :=
    countWhere_of_forall_not (by simp [Listener.initial])
  have hchecked : (Listener.initial (A := A) backlog sockets).checked = 0 :=
    countWhere_of_forall_not (by simp [Listener.initial])
  refine ⟨⟨rfl, List.nodup_nil, by simp, by simp [Listener.initial], ?_, ?_, hbacklog, by simp [Listener.initial],
    ?_, ?_⟩, Nat.two_pow_pos 32, 0, 0, ?_, ?_, rfl⟩
  · simp [hpolled]
  · simp [hchecked]
  · simp [Listener.initial, AcceptPc.connector]
  · simp [Listener.initial, AcceptPc.connector]
  · rw [Nat.cast_zero]
    exact countWhere_of_forall_not (by simp [Listener.initial])
  · rw [Nat.cast_zero]
    exact countWhere_of_forall_not (by simp [Listener.initial])

/-- Between the operations the count is the length of the queue. -/
theorem PendingCount.of_quiet {s : Listener C A} {q : List C} (hcount : PendingCount s q)
    (inv : AcceptInvariant s q) (hquiet : s.Quiet) : s.numPending = q.length := by
  obtain ⟨hlt, n, m, hn, hm, hmod⟩ := hcount
  have hlength : q.length ≤ s.backlog := by exact_mod_cast le_trans le_add_self inv.checked
  have hn' : n = 0 := by
    rw [countWhere_of_forall_not fun c => (hquiet.1 c).2] at hn
    exact_mod_cast hn.symm
  have hm' : m = 0 := by
    rw [countWhere_of_forall_not fun a ⟨c, hc⟩ => by
      rcases hquiet.2 a with h | h <;> simp [h] at hc] at hm
    exact_mod_cast hm.symm
  rw [hn', hm', Nat.add_zero, Nat.add_zero, Nat.mod_eq_of_lt hlt,
    Nat.mod_eq_of_lt (Nat.lt_of_le_of_lt hlength inv.backlog)] at hmod
  exact hmod

variable [DecidableEq C] [DecidableEq A]

theorem acceptInvariant_step {s s' : Listener C A} {e : ListenerEvent C A} {q : List C}
    (inv : AcceptInvariant s q) (guard : AcceptGuard s e) (hstep : ListenerStep s e s') :
    ∃ q', AcceptInvariant s' q' ∧ q ++ e.enqueued = e.dequeued ++ q' := by
  have hsame : AcceptInvariant s' q → e.enqueued = [] → e.dequeued = [] →
      ∃ q', AcceptInvariant s' q' ∧ q ++ e.enqueued = e.dequeued ++ q' := by
    intro inv' henqueued hdequeued
    exact ⟨q, inv', by rw [henqueued, hdequeued, List.append_nil, List.nil_append]⟩
  cases hstep with
  | @connectCheck c hpc hmem _ =>
      apply hsame _ rfl rfl
      apply inv.setConnect (by simp [hpc, ConnectPc.Entered]) fun _ => hmem
      have hmore : (s.setConnect c .checked).checked = s.checked + 1 :=
        countWhere_update_add (by simp [hpc]) rfl
      rw [hmore, add_right_comm]
      exact Order.add_one_le_of_lt (guard q inv.queue)
  | connectRefused hpc _ _ =>
      exact hsame (inv.setConnect_unchecked (by simp) (by simp [hpc, ConnectPc.Entered])) rfl rfl
  | @enqueue s' c hpc hrun => exact ⟨q ++ [c], inv.enqueue hpc hrun, rfl⟩
  | countEnqueued hpc =>
      exact hsame ((inv.setNumPending _).setConnect_unchecked (by simp) (by simp [ConnectPc.Entered])) rfl rfl
  | connectReturn hpc _ =>
      exact hsame (inv.setConnect_unchecked (by simp) (by simp [ConnectPc.Entered])) rfl rfl
  | connectInterrupted hpc =>
      exact hsame (inv.setConnect_unchecked (by simp) (by simp [ConnectPc.Entered])) rfl rfl
  | accept hpc =>
      exact hsame (inv.setAccept_unpolled .blocked (by simp) (by simp [AcceptPc.connector])) rfl rfl
  | @acceptPoll a hpc _ =>
      apply hsame _ rfl rfl
      apply inv.setAccept (by simp [AcceptPc.connector])
      have hmore : (s.setAccept a .polled).polled = s.polled + 1 :=
        countWhere_update_add (by simp [hpc]) rfl
      rw [hmore]
      exact Order.add_one_le_of_lt (guard q inv.queue)
  | acceptInterrupted hpc =>
      exact hsame (inv.setAccept_unpolled .outside (by simp) (by simp [AcceptPc.connector])) rfl rfl
  | @deque s' a c hpc hrun =>
      obtain ⟨q', rfl, inv'⟩ := inv.deque hpc hrun
      exact ⟨q', inv', by simp [ListenerEvent.enqueued, ListenerEvent.dequeued]⟩
  | dequeNull hpc hrun => exact absurd hrun (inv.dequePending_ne_error hpc)
  | countDequeued hpc =>
      exact hsame ((inv.setNumPending _).setAccept_unpolled _ (by simp)
        (by simp [hpc, AcceptPc.connector])) rfl rfl
  | assertNotConnected hpc _ =>
      exact hsame (inv.setAccept_unpolled _ (by simp) (by simp [hpc, AcceptPc.connector])) rfl rfl
  | acceptReturn hpc => exact hsame (inv.acceptReturn hpc) rfl rfl

/-- The count follows the length of the queue. -/
theorem pendingCount_step {s s' : Listener C A} {e : ListenerEvent C A} {q q' : List C}
    (hcount : PendingCount s q) (hstep : ListenerStep s e s') (hq : q ++ e.enqueued = e.dequeued ++ q') :
    PendingCount s' q' := by
  obtain ⟨hlt, n, m, hn, hm, hmod⟩ := hcount
  have hconnect : ∀ (c : C) (pc : ConnectPc), s.connectPc c ≠ .enqueued → pc ≠ .enqueued →
      countWhere (· = .enqueued) (Function.update s.connectPc c pc) = n := by
    intro c pc hold hnew
    have hsame : pc = .enqueued ↔ s.connectPc c = .enqueued := iff_of_false hnew hold
    exact (countWhere_update_same hsame).trans hn
  have haccept : ∀ (a : A) (pc : AcceptPc C), (∀ c, s.acceptPc a ≠ .dequeued c) → (∀ c, pc ≠ .dequeued c) →
      countWhere (fun pc => ∃ c, pc = .dequeued c) (Function.update s.acceptPc a pc) = m := by
    intro a pc hold hnew
    have hsame : (∃ c, pc = .dequeued c) ↔ ∃ c, s.acceptPc a = .dequeued c :=
      iff_of_false (fun ⟨c, hc⟩ => hnew c hc) fun ⟨c, hc⟩ => hold c hc
    exact (countWhere_update_same hsame).trans hm
  have hsame : e.enqueued = [] → e.dequeued = [] → q.length = q'.length := by
    intro henqueued hdequeued
    rw [henqueued, hdequeued, List.append_nil, List.nil_append] at hq
    rw [hq]
  cases hstep with
  | connectCheck hpc _ _ =>
      exact ⟨hlt, n, m, hconnect _ _ (by simp [hpc]) (by simp), hm, hsame rfl rfl ▸ hmod⟩
  | connectRefused hpc _ _ =>
      exact ⟨hlt, n, m, hconnect _ _ (by simp [hpc]) (by simp), hm, hsame rfl rfl ▸ hmod⟩
  | @enqueue s' c hpc hrun =>
      obtain ⟨head, next, rfl⟩ := enqueuePending_ok hrun
      have hmore : countWhere (· = .enqueued) (Function.update s.connectPc c .enqueued) = n + 1 :=
        hn ▸ countWhere_update_add (by simp [hpc]) rfl
      have hlength : q.length + 1 = q'.length := by
        simpa [ListenerEvent.enqueued, ListenerEvent.dequeued] using congrArg List.length hq
      refine ⟨hlt, n + 1, m, by exact_mod_cast hmore, hm, ?_⟩
      change (s.numPending + (n + 1)) % wordSize = _
      rw [← hlength, ← Nat.add_assoc, Nat.add_mod, hmod, ← Nat.add_mod, Nat.add_right_comm]
  | @countEnqueued c hpc =>
      have hless : countWhere (· = .enqueued) (Function.update s.connectPc c .blocked) + 1 = n :=
        hn ▸ countWhere_update_sub hpc (by simp)
      obtain ⟨k, hk, rfl⟩ := exists_of_add_one_eq hless
      refine ⟨wordSucc_lt hlt, k, m, hk, hm, ?_⟩
      change (wordSucc s.numPending + k) % wordSize = _
      rw [← hsame rfl rfl, ← hmod, wordSucc_mod, Nat.add_assoc]
  | connectReturn hpc _ =>
      exact ⟨hlt, n, m, hconnect _ _ (by simp [hpc]) (by simp), hm, hsame rfl rfl ▸ hmod⟩
  | connectInterrupted hpc =>
      exact ⟨hlt, n, m, hconnect _ _ (by simp [hpc]) (by simp), hm, hsame rfl rfl ▸ hmod⟩
  | accept hpc =>
      exact ⟨hlt, n, m, hn, haccept _ _ (by simp [hpc]) (by simp), hsame rfl rfl ▸ hmod⟩
  | acceptPoll hpc _ =>
      exact ⟨hlt, n, m, hn, haccept _ _ (by simp [hpc]) (by simp), hsame rfl rfl ▸ hmod⟩
  | acceptInterrupted hpc =>
      exact ⟨hlt, n, m, hn, haccept _ _ (by simp [hpc]) (by simp), hsame rfl rfl ▸ hmod⟩
  | @deque s' a c hpc hrun =>
      obtain ⟨head, rfl⟩ := dequePending_ok hrun
      have hmore : countWhere (fun pc => ∃ c, pc = .dequeued c) (Function.update s.acceptPc a (.dequeued c)) =
          m + 1 :=
        hm ▸ countWhere_update_add (by simp [hpc]) ⟨c, rfl⟩
      have hlength : q.length = q'.length + 1 := by
        simpa [ListenerEvent.enqueued, ListenerEvent.dequeued] using congrArg List.length hq
      refine ⟨hlt, n, m + 1, hn, by exact_mod_cast hmore, ?_⟩
      change (s.numPending + n) % wordSize = _
      rw [hmod, hlength]
      congr 1
      omega
  | dequeNull hpc _ =>
      exact ⟨hlt, n, m, hn, haccept _ _ (by simp [hpc]) (by simp), hsame rfl rfl ▸ hmod⟩
  | @countDequeued a c hpc =>
      have hless : countWhere (fun pc => ∃ c, pc = .dequeued c) (Function.update s.acceptPc a (.counted c)) +
          1 = m :=
        hm ▸ countWhere_update_sub ⟨c, hpc⟩ (by simp)
      obtain ⟨k, hk, rfl⟩ := exists_of_add_one_eq hless
      refine ⟨wordPred_lt hlt, n, k, hn, hk, ?_⟩
      change (wordPred s.numPending + n) % wordSize = _
      rw [← hsame rfl rfl]
      have hnext : wordPred s.numPending + n + 1 ≡ q.length + k + 1 [MOD wordSize] := by
        rw [Nat.ModEq, wordPred_mod, hmod, Nat.add_assoc]
      exact Nat.ModEq.add_right_cancel' 1 hnext
  | assertNotConnected hpc _ =>
      exact ⟨hlt, n, m, hn, haccept _ _ (by simp [hpc]) (by simp), hsame rfl rfl ▸ hmod⟩
  | acceptReturn hpc =>
      exact ⟨hlt, n, m, hn, haccept _ _ (by simp [hpc]) (by simp), hsame rfl rfl ▸ hmod⟩

/-- A process returns the connector that it has taken, and then has none. -/
theorem returnedBy_step {s s' : Listener C A} {e : ListenerEvent C A} (hstep : ListenerStep s e s') (a : A) :
    (s.acceptPc a).connector.toList ++ e.dequeuedBy a =
      e.returnedBy a ++ (s'.acceptPc a).connector.toList := by
  have hsame : s'.acceptPc = s.acceptPc → e.dequeuedBy a = [] → e.returnedBy a = [] →
      (s.acceptPc a).connector.toList ++ e.dequeuedBy a =
        e.returnedBy a ++ (s'.acceptPc a).connector.toList := by
    intro hpc hdequeued hreturned
    rw [hpc, hdequeued, hreturned, List.append_nil, List.nil_append]
  have hmoves : ∀ {b pc pc'}, s.acceptPc b = pc → s'.acceptPc = Function.update s.acceptPc b pc' →
      (b = a → pc.connector.toList ++ e.dequeuedBy a = e.returnedBy a ++ pc'.connector.toList) →
      (b ≠ a → e.dequeuedBy a = [] ∧ e.returnedBy a = []) →
      (s.acceptPc a).connector.toList ++ e.dequeuedBy a =
        e.returnedBy a ++ (s'.acceptPc a).connector.toList := by
    intro b pc pc' hpc hpc' hself hother
    by_cases heq : b = a
    · subst heq
      rw [hpc', Function.update_self, hpc]
      exact hself rfl
    · rw [hpc', Function.update_of_ne (Ne.symm heq), (hother heq).1, (hother heq).2, List.append_nil,
        List.nil_append]
  cases hstep with
  | connectCheck _ _ _ => exact hsame rfl rfl rfl
  | connectRefused _ _ _ => exact hsame rfl rfl rfl
  | enqueue _ hrun =>
      obtain ⟨head, next, rfl⟩ := enqueuePending_ok hrun
      exact hsame rfl rfl rfl
  | countEnqueued _ => exact hsame rfl rfl rfl
  | connectReturn _ _ => exact hsame rfl rfl rfl
  | connectInterrupted _ => exact hsame rfl rfl rfl
  | accept hpc => exact hmoves hpc rfl (fun _ => rfl) fun _ => ⟨rfl, rfl⟩
  | acceptPoll hpc _ => exact hmoves hpc rfl (fun _ => rfl) fun _ => ⟨rfl, rfl⟩
  | acceptInterrupted hpc => exact hmoves hpc rfl (fun _ => rfl) fun _ => ⟨rfl, rfl⟩
  | deque hpc hrun =>
      obtain ⟨head, rfl⟩ := dequePending_ok hrun
      apply hmoves hpc rfl
      · intro heq
        simp [ListenerEvent.dequeuedBy, ListenerEvent.returnedBy, AcceptPc.connector, heq]
      · intro hne
        simp [ListenerEvent.dequeuedBy, ListenerEvent.returnedBy, hne]
  | dequeNull hpc _ => exact hmoves hpc rfl (fun _ => rfl) fun _ => ⟨rfl, rfl⟩
  | countDequeued hpc => exact hmoves hpc rfl (fun _ => rfl) fun _ => ⟨rfl, rfl⟩
  | assertNotConnected hpc _ => exact hmoves hpc rfl (fun _ => rfl) fun _ => ⟨rfl, rfl⟩
  | acceptReturn hpc =>
      apply hmoves hpc rfl
      · intro heq
        simp [ListenerEvent.dequeuedBy, ListenerEvent.returnedBy, AcceptPc.connector, heq]
      · intro hne
        simp [ListenerEvent.dequeuedBy, ListenerEvent.returnedBy, hne]

/-- No connector is enqueued twice. -/
theorem enqueued_step {s s' : Listener C A} {e : ListenerEvent C A} {l : List C}
    (hl : l.Nodup ∧ ∀ c ∈ l, (s.connectPc c).Entered) (hstep : ListenerStep s e s') :
    (l ++ e.enqueued).Nodup ∧ ∀ c ∈ l ++ e.enqueued, (s'.connectPc c).Entered := by
  have hsame : s'.connectPc = s.connectPc → e.enqueued = [] →
      (l ++ e.enqueued).Nodup ∧ ∀ c ∈ l ++ e.enqueued, (s'.connectPc c).Entered := by
    intro hpc henqueued
    rw [henqueued, List.append_nil, hpc]
    exact hl
  have hmoves : ∀ {c pc}, s'.connectPc = Function.update s.connectPc c pc → e.enqueued = [] →
      ((s.connectPc c).Entered → pc.Entered) →
      (l ++ e.enqueued).Nodup ∧ ∀ c ∈ l ++ e.enqueued, (s'.connectPc c).Entered := by
    intro c pc hpc henqueued hentered
    rw [henqueued, List.append_nil, hpc]
    refine ⟨hl.1, ?_⟩
    intro x hx
    by_cases heq : x = c
    · subst heq
      rw [Function.update_self]
      exact hentered (hl.2 x hx)
    · rw [Function.update_of_ne heq]
      exact hl.2 x hx
  cases hstep with
  | connectCheck hpc _ _ => exact hmoves rfl rfl (by simp [hpc, ConnectPc.Entered])
  | connectRefused _ _ _ => exact hmoves rfl rfl fun _ => trivial
  | @enqueue s' c hpc hrun =>
      obtain ⟨head, next, rfl⟩ := enqueuePending_ok hrun
      have hc : c ∉ l := by
        intro hmem
        have hentered := hl.2 c hmem
        rw [hpc] at hentered
        exact hentered
      constructor
      · exact List.nodup_append.2 ⟨hl.1, List.nodup_singleton c, by
          rintro x hx y hy rfl
          exact hc (List.mem_singleton.1 hy ▸ hx)⟩
      · intro x hx
        by_cases heq : x = c
        · simp [heq, Listener.setConnect, ConnectPc.Entered]
        · have hx' : x ∈ l := by simpa [ListenerEvent.enqueued, heq] using hx
          simpa [Listener.setConnect, Function.update_of_ne heq] using hl.2 x hx'
  | countEnqueued _ => exact hmoves rfl rfl fun _ => trivial
  | connectReturn _ _ => exact hmoves rfl rfl fun _ => trivial
  | connectInterrupted _ => exact hmoves rfl rfl fun _ => trivial
  | deque _ hrun =>
      obtain ⟨head, rfl⟩ := dequePending_ok hrun
      exact hsame rfl rfl
  | _ => exact hsame rfl rfl

/-- No connector is returned twice: it is not connected when it is taken, and connected afterwards. -/
theorem returned_step {s s' : Listener C A} {e : ListenerEvent C A} {q l : List C}
    (inv : AcceptInvariant s q) (hl : l.Nodup ∧ ∀ c ∈ l, s.connected c = true)
    (hstep : ListenerStep s e s') :
    (l ++ e.returned).Nodup ∧ ∀ c ∈ l ++ e.returned, s'.connected c = true := by
  have hsame : s'.connected = s.connected → e.returned = [] →
      (l ++ e.returned).Nodup ∧ ∀ c ∈ l ++ e.returned, s'.connected c = true := by
    intro hconnected hreturned
    rw [hreturned, List.append_nil, hconnected]
    exact hl
  cases hstep with
  | enqueue _ hrun =>
      obtain ⟨head, next, rfl⟩ := enqueuePending_ok hrun
      exact hsame rfl rfl
  | deque _ hrun =>
      obtain ⟨head, rfl⟩ := dequePending_ok hrun
      exact hsame rfl rfl
  | @acceptReturn a c hpc =>
      have hc : c ∉ l := by
        intro hmem
        have hheld := (inv.held a c (by simp [hpc, AcceptPc.connector])).2.2
        simp [hl.2 c hmem] at hheld
      constructor
      · exact List.nodup_append.2 ⟨hl.1, List.nodup_singleton c, by
          rintro x hx y hy rfl
          exact hc (List.mem_singleton.1 hy ▸ hx)⟩
      · intro x hx
        by_cases heq : x = c
        · simp [heq, Listener.setAccept]
        · have hx' : x ∈ l := by simpa [ListenerEvent.returned, heq] using hx
          simpa [Listener.setAccept, Function.update_of_ne heq] using hl.2 x hx'
  | _ => exact hsame rfl rfl

/-- The listening socket over runs: in every run in which an acceptor only passes its poll, and a connector
    its check, when there is a connector or a place for it beside those that have passed before. -/
theorem accept_queue_is_fifo {s t : Listener C A}
    {xs : List (Transition (Listener C A) (ListenerEvent C A))} (hinit : (listenerSystem C A).init s)
    (run : (listenerSystem C A).Run s xs t) (guard : ∀ x ∈ xs, AcceptGuard x.before x.event) :
    AcceptQueueIntegrity xs t := by
  obtain ⟨backlog, sockets, hbacklog, rfl⟩ := hinit
  have hstart := acceptInvariant_initial (A := A) hbacklog sockets
  have hkeeps : ∀ s e s' q, (AcceptInvariant s q ∧ PendingCount s q) → AcceptGuard s e →
      (listenerSystem C A).step s e s' →
      ∃ q', (AcceptInvariant s' q' ∧ PendingCount s' q') ∧ q ++ e.enqueued = e.dequeued ++ q' := by
    rintro s e s' q ⟨inv, hcount⟩ hguard hstep
    obtain ⟨q', inv', hq⟩ := acceptInvariant_step inv hguard hstep
    exact ⟨q', ⟨inv', pendingCount_step hcount hstep hq⟩, hq⟩
  have hinv : ∀ x ∈ xs, ∃ q, AcceptInvariant x.before q := by
    have hkept : ∀ s e s', (∃ q, AcceptInvariant s q) → AcceptGuard s e → (listenerSystem C A).step s e s' →
        ∃ q, AcceptInvariant s' q := by
      rintro s e s' ⟨q, inv⟩ hguard hstep
      obtain ⟨q', inv', _⟩ := acceptInvariant_step inv hguard hstep
      exact ⟨q', inv'⟩
    exact fun x hx => (run.guarded_invariant_mem _ hkept ⟨[], hstart.1⟩ guard x hx).1
  constructor
  · obtain ⟨q, ⟨inv, hcount⟩, hq⟩ := run.guarded_queue _ ListenerEvent.enqueued ListenerEvent.dequeued hkeeps
      hstart guard
    have hlength : q.length ≤ t.backlog := by exact_mod_cast le_trans le_add_self inv.checked
    exact ⟨q, inv.queue, hq, hlength, hcount.of_quiet inv⟩
  · have henqueued := run.guarded_collect (fun s l => l.Nodup ∧ ∀ c ∈ l, (s.connectPc c).Entered)
      ListenerEvent.enqueued (fun _ _ _ _ hl (_ : True) hstep => enqueued_step hl hstep) (by simp)
      fun _ _ => trivial
    exact henqueued.1
  · intro a
    have hreturns := run.queue (fun s => (s.acceptPc a).connector.toList) (ListenerEvent.dequeuedBy a)
      (ListenerEvent.returnedBy a) fun _ _ _ hstep => returnedBy_step hstep a
    simp only [Listener.initial, AcceptPc.connector, Option.toList_none, List.nil_append] at hreturns
    exact ⟨_, hreturns.symm⟩
  · have hkept : ∀ s e s' l, ((∃ q, AcceptInvariant s q) ∧ l.Nodup ∧ ∀ c ∈ l, s.connected c = true) →
        AcceptGuard s e → (listenerSystem C A).step s e s' →
        (∃ q, AcceptInvariant s' q) ∧ (l ++ e.returned).Nodup ∧ ∀ c ∈ l ++ e.returned, s'.connected c = true := by
      rintro s e s' l ⟨⟨q, inv⟩, hl⟩ hguard hstep
      obtain ⟨q', inv', _⟩ := acceptInvariant_step inv hguard hstep
      exact ⟨⟨q', inv'⟩, returned_step inv hl hstep⟩
    have hreturned := run.guarded_collect _ ListenerEvent.returned hkept ⟨⟨[], hstart.1⟩, by simp⟩ guard
    exact hreturned.2.1
  · intro x hx a hevent
    obtain ⟨q, inv⟩ := hinv x hx
    have hstep := run.step_of_mem x hx
    rw [hevent] at hstep
    generalize x.after = s' at hstep
    cases hstep with
    | dequeNull hpc hrun => exact inv.dequePending_ne_error hpc hrun

/-- A connector connects, and a process accepts it. -/
theorem accept_queue_is_fifo_after_accept :
    ∃ s xs t, (listenerSystem Nat Nat).init s ∧ (listenerSystem Nat Nat).Run s xs t ∧
      t.acceptPc 0 = .dequeued 0 ∧ AcceptQueueIntegrity xs t := by
  have hinit : (listenerSystem Nat Nat).init (Listener.initial 1 [0]) := ⟨1, [0], by decide, rfl⟩
  have run : (listenerSystem Nat Nat).Run (Listener.initial 1 [0]) _ _ :=
    .cons (.connectCheck (c := 0) rfl (by decide) (by decide)) (.cons (.enqueue (c := 0) rfl rfl)
      (.cons (.countEnqueued (c := 0) rfl) (.cons (.accept (a := 0) rfl) (.cons (.acceptPoll (a := 0) rfl Nat.one_pos)
        (.cons (.deque (a := 0) (c := 0) rfl rfl) (.nil _))))))
  refine ⟨_, _, _, hinit, run, rfl, accept_queue_is_fifo hinit run ?_⟩
  simp only [List.mem_cons, List.not_mem_nil, or_false, forall_eq_or_imp, forall_eq, AcceptGuard, true_and,
    and_true]
  constructor
  · intro q hq
    obtain rfl := LinkedList.nil_iff.1 hq
    have hchecked : (Listener.initial (A := Nat) 1 [0]).checked = 0 :=
      countWhere_of_forall_not (by simp [Listener.initial])
    rw [hchecked]
    exact zero_lt_one
  · intro q hq
    obtain ⟨q', rfl, _⟩ := hq.exists_cons
    refine lt_of_eq_of_lt (countWhere_of_forall_not ?_) (Nat.cast_pos.2 (Nat.succ_pos q'.length))
    intro a
    by_cases heq : a = 0
    · simp [heq, Listener.setAccept]
    · simp [heq, Listener.setAccept, Listener.setConnect, Listener.initial]

/-- Two processes pass their poll on one connector: the second one takes it from an empty queue. -/
theorem accept_dequeues_null :
    ¬ ∀ (s : Listener Nat Nat) xs t, (listenerSystem Nat Nat).init s → (listenerSystem Nat Nat).Run s xs t →
      AcceptQueueIntegrity xs t := by
  intro h
  have hinit : (listenerSystem Nat Nat).init (Listener.initial 1 [0]) := ⟨1, [0], by decide, rfl⟩
  have run : (listenerSystem Nat Nat).Run (Listener.initial 1 [0]) _ _ :=
    .cons (.connectCheck (c := 0) rfl (by decide) (by decide)) (.cons (.enqueue (c := 0) rfl rfl)
      (.cons (.countEnqueued (c := 0) rfl) (.cons (.accept (a := 0) rfl) (.cons (.accept (a := 1) rfl)
        (.cons (.acceptPoll (a := 0) rfl Nat.one_pos) (.cons (.acceptPoll (a := 1) rfl Nat.one_pos)
          (.cons (.deque (a := 0) (c := 0) rfl rfl) (.cons (.dequeNull (a := 1) rfl rfl) (.nil _)))))))))
  exact (h _ _ _ hinit run).notEmpty _ (List.mem_of_getLast? rfl) 1 rfl

end Runs

end Chaotix
