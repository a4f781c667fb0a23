import Rypipe.Stream.Coordinator
import Mathlib.Algebra.BigOperators.Group.Finset.Basic
import Mathlib.Order.Interval.Finset.Nat
import Mathlib.Tactic.Abel

/-! # Ordered delivery

Every chunk of an ordered run is in one place: the queue, a worker, the channel, the reorder buffer,
or the consumed prefix. `Flow` states this as an equation between multisets of chunk indices,
together with the bound the dispatch window puts on the indices that are past it; every action of
every thread keeps it. -/

namespace Rypipe

namespace Stream

universe u v

variable {β : Type u} {ε : Type v} {run : Run β ε}

/-- The chunk a worker holds. -/
def Worker.held : Worker β ε → Multiset Nat
  | .waiting seq | .parsing seq | .sending seq _ => {seq}
  | .idle | .stopped => 0

/-- The chunk a worker holds past the dispatch window. -/
def Worker.admitted : Worker β ε → Option Nat
  | .parsing seq | .sending seq _ => some seq
  | .idle | .waiting _ | .stopped => none

/-- Changing the state of a worker exchanges the chunk it holds. -/
theorem sum_held_setWorker (workers : Fin run.workers → Worker β ε) (w : Fin run.workers)
    (x : Worker β ε) :
    (∑ v, (Function.update workers w x v).held) + (workers w).held =
      (∑ v, (workers v).held) + x.held := by
  have hold := Finset.sum_erase_add Finset.univ (fun v => (workers v).held) (Finset.mem_univ w)
  have hnew := Finset.sum_erase_add Finset.univ
    (fun v => (Function.update workers w x v).held) (Finset.mem_univ w)
  have hsame : ∑ v ∈ Finset.univ.erase w, (Function.update workers w x v).held =
      ∑ v ∈ Finset.univ.erase w, (workers v).held := by
    refine Finset.sum_congr rfl fun v hv => ?_
    rw [Function.update_of_ne (Finset.ne_of_mem_erase hv)]
  rw [Function.update_self, hsame] at hnew
  rw [← hold, ← hnew, add_right_comm]

namespace State

variable (s : State run)

/-- Where the chunks are. -/
def places : Multiset Nat :=
  ↑s.queue + (∑ w, (s.workers w).held) + ↑(s.channel.map Prod.fst) +
    ↑s.coordinator.pending.keys + Multiset.range s.coordinator.nextSeq

/-- The invariant while the coordinator is receiving. -/
structure Flow : Prop where
  /-- Every chunk is in exactly one place. -/
  places : s.places = Multiset.range run.numChunks
  dispatch : s.coordinator.dispatch = some s.coordinator.nextSeq
  /-- The chunks past the dispatch window are close to the next one. -/
  working : ∀ w seq, (s.workers w).admitted = some seq →
    seq ≤ s.coordinator.nextSeq + run.maxReorder
  sent : ∀ p ∈ s.channel, p.1 ≤ s.coordinator.nextSeq + run.maxReorder
  held : ∀ seq ∈ s.coordinator.pending.keys, seq ≤ s.coordinator.nextSeq + run.maxReorder
  /-- The next chunk is not held back. -/
  next : s.coordinator.nextSeq ∉ s.coordinator.pending.keys
  /-- The results are those of their chunks. -/
  sendingBatch : ∀ w seq b, s.workers w = .sending seq (.ok b) → b = run.batch seq
  sentBatch : ∀ seq b, (seq, Except.ok b) ∈ s.channel → b = run.batch seq
  heldBatch : ∀ seq b, s.coordinator.pending.lookup seq = some b → b = run.batch seq
  consumed : s.coordinator.consumed = (List.range s.coordinator.nextSeq).map run.batch
  /-- A worker only stops when the queue is empty or after a failure, which the coordinator will
  receive. -/
  stopped : ∀ w, s.workers w = .stopped →
    s.queue = [] ∨ ∃ seq err, (seq, Except.error err) ∈ s.channel

/-- What holds of the coordinator once it has left its loop. -/
structure Settled (c : Coordinator β) (result : Except ε Unit) : Prop where
  consumed : ∃ k, c.consumed = (List.range k).map run.batch
  pending : c.pending.keys.length ≤ run.maxReorder
  ok : result = .ok () → c.consumed = (List.range run.numChunks).map run.batch

/-- The invariant of a run. -/
def Inv : Prop :=
  match s.phase with
  | .receiving => s.Flow
  | .ended result | .joining result | .returned result =>
      @Settled β ε run s.coordinator result

variable {s}

/-- The initial state has every chunk in the queue, the first one at its end, where the workers pop
it. -/
theorem initial_flow (run : Run β ε) : (State.initial run).Flow where
  places := by
    have hheld : (∑ w, ((State.initial run).workers w).held) = 0 :=
      Finset.sum_eq_zero fun w _ => rfl
    rw [State.places, hheld]
    simp only [State.initial, add_zero, List.map_nil, Multiset.coe_nil, Multiset.range_zero,
      Multiset.coe_reverse, Multiset.coe_range]
    exact add_zero _
  dispatch := rfl
  working w seq h := by cases h
  sent p hp := by cases hp
  held seq h := by cases h
  next h := by cases h
  sendingBatch w seq b h := by cases h
  sentBatch seq b h := by cases h
  heldBatch seq b h := by cases h
  consumed := rfl
  stopped w h := by cases h

/-- No more batches are held back than the reorder bound allows. -/
theorem Flow.pending_le (h : s.Flow) : s.coordinator.pending.keys.length ≤ run.maxReorder := by
  have hnodup : (Multiset.range run.numChunks).Nodup := Multiset.nodup_range _
  rw [← h.places, State.places] at hnodup
  have hdisj := (Multiset.nodup_add.mp hnodup).2.2
  have hsub : s.coordinator.pending.keys.toFinset ⊆
      Finset.Ioc s.coordinator.nextSeq (s.coordinator.nextSeq + run.maxReorder) := by
    intro seq hseq
    rw [List.mem_toFinset] at hseq
    have hlow : s.coordinator.nextSeq ≤ seq := by
      by_contra hlt
      refine Multiset.disjoint_left.mp hdisj ?_ (Multiset.mem_range.mpr (not_le.mp hlt))
      exact Multiset.mem_add.mpr (Or.inr hseq)
    have hne : seq ≠ s.coordinator.nextSeq := fun heq => h.next (heq ▸ hseq)
    exact Finset.mem_Ioc.mpr ⟨by omega, h.held seq hseq⟩
  have hcard := Finset.card_le_card hsub
  rwa [List.toFinset_card_of_nodup s.coordinator.pending.keys_nodup, Nat.card_Ioc,
    Nat.add_sub_cancel_left] at hcard

/-- The worker that holds the next chunk is not blocked. The window is counted from this chunk on,
so that it is always inside. -/
theorem Flow.not_blocked (h : s.Flow) {w : Fin run.workers}
    (hw : s.workers w = .waiting s.coordinator.nextSeq) : ¬ s.Blocked w := by
  rintro ⟨seq, next, hseq, hnext, hheld⟩
  obtain rfl := Worker.waiting.inj (hw.symm.trans hseq)
  obtain rfl := Option.some.inj (h.dispatch.symm.trans hnext)
  have hmem : s.coordinator.nextSeq ∈ ∑ w, (s.workers w).held :=
    Multiset.mem_sum.mpr ⟨w, Finset.mem_univ w, by rw [hw]; exact Multiset.mem_singleton_self _⟩
  have hlt : s.coordinator.nextSeq ∈ Multiset.range run.numChunks := by
    rw [← h.places, State.places]
    simp [hmem]
  rw [Multiset.mem_range] at hlt
  have hmax := run.numChunks_le
  simp only [withheld, saturatingAdd, Run.dispatchWindow, usizeMax] at hheld hmax
  omega

end State

section Coordinate

/-- The coordinator has consumed the chunks before the next one, and holds back the batches of
their chunks. -/
structure Coordinator.Ordered (run : Run β ε) (c : Coordinator β) : Prop where
  consumed : c.consumed = (List.range c.nextSeq).map run.batch
  heldBatch : ∀ seq b, c.pending.lookup seq = some b → b = run.batch seq

/-- The coordinator has moved on: chunks went from the reorder buffer to the consumed prefix. -/
structure Coordinator.Advance (c c' : Coordinator β) : Prop where
  places : (c'.pending.keys : Multiset Nat) + Multiset.range c'.nextSeq =
    ↑c.pending.keys + Multiset.range c.nextSeq
  nextSeq : c.nextSeq ≤ c'.nextSeq
  held : ∀ seq ∈ c'.pending.keys, seq ∈ c.pending.keys

/-- What is left when the loop ends with an error: a consumed prefix, and no more held back. -/
structure Coordinator.Cut (run : Run β ε) (c c' : Coordinator β) : Prop where
  consumed : ∃ k, c'.consumed = (List.range k).map run.batch
  pending : c'.pending.keys.length ≤ c.pending.keys.length

/-- The batch of the next chunk extends the consumed prefix. -/
theorem Coordinator.Ordered.consumed_append {c : Coordinator β} (h : c.Ordered run) {b : β}
    (hb : b = run.batch c.nextSeq) :
    c.consumed ++ [b] = (List.range (c.nextSeq + 1)).map run.batch := by
  rw [h.consumed, List.range_succ, List.map_append, hb]
  rfl

/-- The loop over the reorder buffer moves on until the next chunk is not held back, or the consumer
fails. By induction on the number of batches held back: each turn consumes one of them and erases
it. -/
theorem drain_spec {fuel : Nat} {c : Coordinator β} (h : c.Ordered run)
    (hfuel : c.pending.keys.length ≤ fuel) :
    match drain run fuel c with
    | (c', none) => c'.Ordered run ∧ c.Advance c' ∧ c'.nextSeq ∉ c'.pending.keys
    | (c', some _) => c.Cut run c' := by
  induction fuel generalizing c with
  | zero =>
      have hnil : c.pending.keys = [] := List.length_eq_zero_iff.mp (Nat.le_zero.mp hfuel)
      refine ⟨h, ⟨rfl, le_rfl, fun _ => id⟩, ?_⟩
      rw [hnil]
      exact List.not_mem_nil
  | succ fuel ih =>
      rw [drain]
      cases hlook : c.pending.lookup c.nextSeq with
      | none => exact ⟨h, ⟨rfl, le_rfl, fun _ => id⟩, AList.lookup_eq_none.mp hlook⟩
      | some b =>
          have hmem : c.nextSeq ∈ c.pending.keys := by
            rw [← AList.mem_keys, ← AList.lookup_isSome, hlook]
            rfl
          have hkeys : (c.pending.erase c.nextSeq).keys = c.pending.keys.erase c.nextSeq :=
            AList.keys_erase _ _
          -- one chunk less is held back, so the fuel suffices for the rest
          have hlen : (c.pending.erase c.nextSeq).keys.length + 1 = c.pending.keys.length := by
            rw [hkeys, List.length_erase_of_mem hmem]
            have := List.length_pos_of_mem hmem
            omega
          have hconsumed := h.consumed_append (h.heldBatch _ _ hlook)
          dsimp only
          cases hcon : run.consume c.consumed b with
          -- the consumer refuses the chunk, which ends the run
          | some err => exact ⟨⟨_, hconsumed⟩, by dsimp only; omega⟩
          | none =>
              have hstep : ({ c with
                  pending := c.pending.erase c.nextSeq
                  reorderBytes := c.reorderBytes - run.size b
                  consumed := c.consumed ++ [b]
                  nextSeq := c.nextSeq + 1 } : Coordinator β).Ordered run := by
                refine ⟨hconsumed, fun seq b' hb' => ?_⟩
                have hne : seq ≠ c.nextSeq := by
                  rintro rfl
                  rw [AList.lookup_erase] at hb'
                  cases hb'
                rw [AList.lookup_erase_ne hne] at hb'
                exact h.heldBatch seq b' hb'
              have hrest := ih hstep (by dsimp only; omega)
              dsimp only
              split at hrest
              · next c' _ =>
                obtain ⟨hord, hadv, hnext⟩ := hrest
                refine ⟨hord, ⟨?_, (Nat.le_succ _).trans hadv.nextSeq, fun seq hseq => ?_⟩, hnext⟩
                · have hback : ((c.pending.keys.erase c.nextSeq : List Nat) : Multiset Nat) +
                      {c.nextSeq} = ↑c.pending.keys := by
                    rw [← Multiset.coe_erase, add_comm, Multiset.singleton_add,
                      Multiset.cons_erase (Multiset.mem_coe.mpr hmem)]
                  rw [hadv.places, hkeys, Multiset.range_succ, ← Multiset.singleton_add,
                    ← add_assoc, hback]
                · exact List.mem_of_mem_erase (hkeys ▸ hadv.held seq hseq)
              · next c' err _ =>
                exact ⟨hrest.consumed, hrest.pending.trans (by dsimp only; omega)⟩

/-- What the coordinator makes of the result of a chunk: it moves on, or it leaves its loop with an
error. A batch that is next is consumed and the buffer is drained after it; one that is early is
held back; an error of the worker or the budget ends the loop with what has been consumed so far. -/
theorem receive_spec {c : Coordinator β} (h : c.Ordered run)
    (hdispatch : c.dispatch = some c.nextSeq) (hnext : c.nextSeq ∉ c.pending.keys) {seq : Nat}
    (hseq : seq ∉ c.pending.keys) {result : Except ε β}
    (hbatch : ∀ b, result = .ok b → b = run.batch seq) :
    match receive run c seq result with
    | (c', none) => c'.Ordered run ∧ c'.dispatch = some c'.nextSeq ∧
        (c'.pending.keys : Multiset Nat) + Multiset.range c'.nextSeq =
          {seq} + (↑c.pending.keys + Multiset.range c.nextSeq) ∧
        c.nextSeq ≤ c'.nextSeq ∧ c'.nextSeq ∉ c'.pending.keys ∧
        (∀ n ∈ c'.pending.keys, n = seq ∨ n ∈ c.pending.keys) ∧ ∃ b, result = .ok b
    | (c', some _) => c.Cut run c' := by
  cases result with
  | error err => exact ⟨⟨_, h.consumed⟩, le_rfl⟩
  | ok b =>
      have hb := hbatch b rfl
      rw [receive]
      -- a chunk in turn is consumed together with those that waited for it, and any other is held
      -- back
      by_cases hturn : seq = c.nextSeq
      · subst hturn
        have hconsumed := h.consumed_append hb
        rw [if_pos rfl]
        dsimp only
        cases hcon : run.consume c.consumed b with
        | some err => exact ⟨⟨_, hconsumed⟩, le_rfl⟩
        | none =>
            have hstep : ({ c with
                consumed := c.consumed ++ [b]
                nextSeq := c.nextSeq + 1 } : Coordinator β).Ordered run :=
              ⟨hconsumed, h.heldBatch⟩
            have hdrain := drain_spec hstep (le_refl c.pending.keys.length)
            dsimp only
            split at hdrain
            · next c' heq =>
              obtain ⟨hord, hadv, hlast⟩ := hdrain
              rw [heq]
              refine ⟨⟨hord.consumed, hord.heldBatch⟩, rfl, ?_, (Nat.le_succ _).trans hadv.nextSeq,
                hlast, fun n hn => Or.inr (hadv.held n hn), b, rfl⟩
              rw [hadv.places, Multiset.range_succ, ← Multiset.singleton_add, add_left_comm]
            · next c' err heq =>
              rw [heq]
              exact ⟨hdrain.consumed, hdrain.pending⟩
      · rw [if_neg hturn]
        dsimp only
        split
        · next c' heq =>
          split at heq
          · cases heq
          · obtain ⟨rfl, -⟩ := Prod.mk.inj heq
            -- the chunk joins those held back, which still lack the next one
            have hkeys : (c.pending.insert seq b).keys = seq :: c.pending.keys := by
              rw [AList.keys_insert, List.erase_of_not_mem hseq]
            refine ⟨⟨h.consumed, fun n b' hb' => ?_⟩, hdispatch, ?_, le_rfl, ?_, fun n hn => ?_, b,
              rfl⟩
            · by_cases hn : n = seq
              · subst hn
                rw [AList.lookup_insert] at hb'
                rw [← Option.some.inj hb', hb]
              · rw [AList.lookup_insert_ne hn] at hb'
                exact h.heldBatch n b' hb'
            · dsimp only
              rw [hkeys, ← Multiset.cons_coe, ← Multiset.singleton_add, add_assoc]
            · dsimp only
              rw [hkeys, List.mem_cons, not_or]
              exact ⟨fun heq => hturn heq.symm, hnext⟩
            · dsimp only at hn
              rw [hkeys, List.mem_cons] at hn
              exact hn
        · next c' err heq =>
          split at heq
          · obtain ⟨rfl, -⟩ := Prod.mk.inj heq
            exact ⟨⟨_, h.consumed⟩, le_rfl⟩
          · cases heq

end Coordinate

namespace State

variable {s : State run}

/-- A change of one worker that keeps the chunks where they are, the queue aside. What the worker
held before and after is the same chunk, so the multiset of places does not change. -/
theorem Flow.setWorker (h : s.Flow) (w : Fin run.workers) {x : Worker β ε} (queue : List Nat)
    (channel : List (Nat × Except ε β))
    (hplaces : (queue : Multiset Nat) + x.held + ↑(channel.map Prod.fst) =
      ↑s.queue + (s.workers w).held + ↑(s.channel.map Prod.fst))
    (hworking : ∀ seq, x.admitted = some seq → seq ≤ s.coordinator.nextSeq + run.maxReorder)
    (hsending : ∀ seq b, x = .sending seq (.ok b) → b = run.batch seq)
    (hsent : ∀ p ∈ channel, p.1 ≤ s.coordinator.nextSeq + run.maxReorder)
    (hsentBatch : ∀ seq b, (seq, Except.ok b) ∈ channel → b = run.batch seq)
    (hqueue : s.queue = [] → queue = [])
    (herror : ∀ seq err, (seq, Except.error err) ∈ s.channel → (seq, Except.error err) ∈ channel)
    (hstopped : x = .stopped → queue = [] ∨ ∃ seq err, (seq, Except.error err) ∈ channel) :
    ({ s with queue := queue, channel := channel }.setWorker w x).Flow where
  places := by
    have hsum := sum_held_setWorker s.workers w x
    -- the chunks queued, in work and in the channel are the same as before
    have hkey : (queue : Multiset Nat) + (∑ v, (Function.update s.workers w x v).held) +
        ↑(channel.map Prod.fst) = ↑s.queue + (∑ v, (s.workers v).held) +
          ↑(s.channel.map Prod.fst) := by
      refine add_right_cancel (show _ + (s.workers w).held = _ + (s.workers w).held from ?_)
      calc (queue : Multiset Nat) + (∑ v, (Function.update s.workers w x v).held) +
            ↑(channel.map Prod.fst) + (s.workers w).held
          = ↑queue + ((∑ v, (Function.update s.workers w x v).held) + (s.workers w).held) +
            ↑(channel.map Prod.fst) := by abel
        _ = ↑queue + ((∑ v, (s.workers v).held) + x.held) + ↑(channel.map Prod.fst) := by rw [hsum]
        _ = (↑queue + x.held + ↑(channel.map Prod.fst)) + (∑ v, (s.workers v).held) := by abel
        _ = ↑s.queue + (∑ v, (s.workers v).held) + ↑(s.channel.map Prod.fst) +
            (s.workers w).held := by rw [hplaces]; abel
    rw [← h.places, State.places, State.places, ← hkey]
    rfl
  dispatch := h.dispatch
  working v seq hv := by
    by_cases hvw : v = w
    · subst hvw
      exact hworking seq (by simpa [State.setWorker] using hv)
    · exact h.working v seq (by simpa [State.setWorker, Function.update_of_ne hvw] using hv)
  sent := hsent
  held := h.held
  next := h.next
  sendingBatch v seq b hv := by
    by_cases hvw : v = w
    · subst hvw
      exact hsending seq b (by simpa [State.setWorker] using hv)
    · exact h.sendingBatch v seq b (by simpa [State.setWorker, Function.update_of_ne hvw] using hv)
  sentBatch := hsentBatch
  heldBatch := h.heldBatch
  consumed := h.consumed
  stopped v hv := by
    by_cases hvw : v = w
    · subst hvw
      exact hstopped (by simpa [State.setWorker] using hv)
    · have hold := h.stopped v (by simpa [State.setWorker, Function.update_of_ne hvw] using hv)
      rcases hold with hempty | ⟨seq, err, hmem⟩
      · exact Or.inl (hqueue hempty)
      · exact Or.inr ⟨seq, err, herror seq err hmem⟩

/-- A received result moves the coordinator on, or ends its loop. The chunk leaves the channel, and
is consumed or held back; the other places are not touched. -/
theorem Flow.receive (h : s.Flow) {seq : Nat} {result : Except ε β}
    {rest : List (Nat × Except ε β)} (hchannel : s.channel = (seq, result) :: rest) :
    ({ s with
      channel := rest
      coordinator := (receive run s.coordinator seq result).1
      phase := phaseAfter (receive run s.coordinator seq result).2 } : State run).Inv := by
  have hmem : (seq, result) ∈ s.channel := hchannel ▸ List.mem_cons_self
  -- every chunk is in one place, so the one received is not held back
  have hseq : seq ∉ s.coordinator.pending.keys := by
    have hnodup : (Multiset.range run.numChunks).Nodup := Multiset.nodup_range _
    rw [← h.places, State.places] at hnodup
    have hdisj := (Multiset.nodup_add.mp (Multiset.nodup_add.mp hnodup).1).2.2
    refine Multiset.disjoint_left.mp hdisj (Multiset.mem_add.mpr (Or.inr ?_))
    exact Multiset.mem_coe.mpr (List.mem_map_of_mem hmem)
  have hspec := receive_spec ⟨h.consumed, h.heldBatch⟩ h.dispatch h.next hseq
    fun b hb => h.sentBatch seq b (hb ▸ hmem)
  generalize Stream.receive run s.coordinator seq result = out at hspec ⊢
  obtain ⟨c', left⟩ := out
  cases left with
  | some err =>
      have hpending := h.pending_le
      exact ⟨hspec.consumed, hspec.pending.trans hpending, fun hok => by cases hok⟩
  | none =>
      obtain ⟨hord, hdispatch, hplaces, hmono, hnext, hkeys, b, rfl⟩ := hspec
      have hrest : ∀ p ∈ rest, p ∈ s.channel := fun p hp =>
        hchannel ▸ List.mem_cons_of_mem _ hp
      have hle : s.coordinator.nextSeq + run.maxReorder ≤ c'.nextSeq + run.maxReorder := by omega
      show State.Flow _
      refine ⟨?_, hdispatch, fun w n hn => (h.working w n hn).trans hle,
        fun p hp => (h.sent p (hrest p hp)).trans hle, fun n hn => ?_, hnext, h.sendingBatch,
        fun n b' hb' => h.sentBatch n b' (hrest _ hb'), hord.heldBatch, hord.consumed,
        fun w hw => ?_⟩
      -- what is received moves from the channel to the pending or the delivered chunks
      · rw [← h.places, State.places, State.places, hchannel]
        dsimp only
        rw [List.map_cons, ← Multiset.cons_coe, ← Multiset.singleton_add, add_assoc _ _
          (Multiset.range c'.nextSeq), hplaces]
        abel
      · rcases hkeys n hn with rfl | hn
        · exact (h.sent _ hmem).trans hle
        · exact (h.held n hn).trans hle
      · rcases h.stopped w hw with hempty | ⟨n, err, hn⟩
        · exact Or.inl hempty
        · refine Or.inr ⟨n, err, ?_⟩
          rw [hchannel, List.mem_cons] at hn
          rcases hn with hn | hn
          · cases hn
          · exact hn

/-- When every worker has stopped and the channel is empty, every chunk has been consumed. -/
theorem Flow.complete (h : s.Flow) (hchannel : s.channel = [])
    (hstopped : ∀ w, s.workers w = .stopped) :
    s.coordinator.consumed = (List.range run.numChunks).map run.batch := by
  have hqueue : s.queue = [] := by
    have hpos : 0 < run.workers := lt_of_lt_of_le Nat.zero_lt_one (le_max_right _ _)
    rcases h.stopped ⟨0, hpos⟩ (hstopped _) with hempty | ⟨seq, err, hmem⟩
    · exact hempty
    · rw [hchannel] at hmem
      cases hmem
  have hheld : (∑ w, (s.workers w).held) = 0 :=
    Finset.sum_eq_zero fun w _ => by rw [hstopped w]; rfl
  have hplaces := h.places
  rw [State.places, hqueue, hheld, hchannel] at hplaces
  simp only [Multiset.coe_nil, List.map_nil, zero_add] at hplaces
  have hle : s.coordinator.nextSeq ≤ run.numChunks := by
    by_contra hlt
    have hmem : run.numChunks ∈ Multiset.range run.numChunks := by
      rw [← hplaces]
      exact Multiset.mem_add.mpr (Or.inr (Multiset.mem_range.mpr (not_le.mp hlt)))
    exact absurd (Multiset.mem_range.mp hmem) (lt_irrefl _)
  have hge : run.numChunks ≤ s.coordinator.nextSeq := by
    by_contra hlt
    have hmem : s.coordinator.nextSeq ∈ Multiset.range run.numChunks :=
      Multiset.mem_range.mpr (not_le.mp hlt)
    rw [← hplaces, Multiset.mem_add, Multiset.mem_range] at hmem
    rcases hmem with hmem | hmem
    · exact h.next hmem
    · exact lt_irrefl _ hmem
  rw [h.consumed, le_antisymm hle hge]

/-- A worker's action keeps the invariant when it keeps it while the coordinator is receiving. -/
theorem Inv.of_worker {s' : State run} (h : s.Inv) (hphase : s'.phase = s.phase)
    (hcoordinator : s'.coordinator = s.coordinator)
    (hflow : s.phase = .receiving → s.Flow → s'.Flow) : s'.Inv := by
  rw [State.Inv, hphase]
  rw [State.Inv] at h
  cases hp : s.phase with
  | receiving =>
      rw [hp] at h
      exact hflow hp h
  | ended result =>
      rw [hp] at h
      exact hcoordinator ▸ h
  | joining result =>
      rw [hp] at h
      exact hcoordinator ▸ h
  | returned result =>
      rw [hp] at h
      exact hcoordinator ▸ h

/-- Popping takes the last chunk of the queue. The queue is in reverse, so it is the first of those
that are left. -/
theorem Flow.pop (h : s.Flow) {w : Fin run.workers} {seq : Nat} (hidle : s.workers w = .idle)
    (hpop : s.queue.getLast? = some seq) :
    ({ s with queue := s.queue.dropLast }.setWorker w (.waiting seq)).Flow := by
  have hqueue : s.queue = s.queue.dropLast ++ [seq] :=
    (List.dropLast_append_getLast? seq hpop).symm
  refine h.setWorker w s.queue.dropLast s.channel ?_
    (fun n hn => by cases hn) (fun n b hn => by cases hn) h.sent h.sentBatch (fun hnil => ?_)
    (fun _ _ => id) (fun hx => by cases hx)
  · rw [hidle]
    conv_rhs => rw [hqueue]
    rw [← Multiset.coe_add, Worker.held, Worker.held, add_zero]
    rfl
  · rw [hnil]
    rfl

/-- An admitted chunk is close to the next one. It was inside the window when it was let in, and the
next number never goes back. -/
theorem Flow.enter (h : s.Flow) {w : Fin run.workers} {seq next : Nat}
    (hwaiting : s.workers w = .waiting seq) (hnext : s.coordinator.dispatch = some next)
    (hopen : ¬ withheld run next seq) : (s.setWorker w (.parsing seq)).Flow := by
  refine h.setWorker w s.queue s.channel ?_ (fun n hn => ?_)
    (fun n b hn => by cases hn) h.sent h.sentBatch id (fun _ _ => id) (fun hx => by cases hx)
  · rw [hwaiting]
    rfl
  · obtain rfl := Option.some.inj hn
    obtain rfl := Option.some.inj (h.dispatch.symm.trans hnext)
    simp only [withheld, saturatingAdd, Run.dispatchWindow] at hopen
    omega

/-- A parsed chunk is at the channel with its own batch, or an error. -/
theorem Flow.parse (h : s.Flow) {w : Fin run.workers} {seq : Nat} {result : Except ε β}
    (hparsing : s.workers w = .parsing seq) (hresult : ∀ b, result = .ok b → b = run.batch seq) :
    (s.setWorker w (.sending seq result)).Flow := by
  refine h.setWorker w s.queue s.channel ?_ (fun n hn => ?_)
    (fun n b hn => ?_) h.sent h.sentBatch id (fun _ _ => id) (fun hx => by cases hx)
  · rw [hparsing]
    rfl
  · obtain rfl := Option.some.inj hn
    exact h.working w seq (by rw [hparsing]; rfl)
  · obtain ⟨rfl, rfl⟩ := Worker.sending.inj hn
    exact hresult b rfl

/-- A sent result moves from its worker to the channel. The chunk is still in one place, and the
worker is free for the next one or has stopped. -/
theorem Flow.send (h : s.Flow) {w : Fin run.workers} {seq : Nat} {result : Except ε β}
    (hsending : s.workers w = .sending seq result) :
    ({ s with channel := s.channel ++ [(seq, result)] }.setWorker w (afterSend result)).Flow := by
  have hheld : (afterSend result).held = 0 := by cases result <;> rfl
  refine h.setWorker w s.queue (s.channel ++ [(seq, result)]) ?_
    (fun n hn => by cases result <;> cases hn) (fun n b hn => by cases result <;> cases hn)
    (fun p hp => ?_) (fun n b hb => ?_) id (fun n err hn => List.mem_append_left _ hn)
    (fun hx => ?_)
  · rw [hheld, hsending, List.map_append, ← Multiset.coe_add, Worker.held, add_zero, add_assoc,
      add_comm ({seq} : Multiset Nat)]
    rfl
  · rcases List.mem_append.mp hp with hp | hp
    · exact h.sent p hp
    · rw [List.mem_singleton] at hp
      subst hp
      exact h.working w seq (by rw [hsending]; rfl)
  · rcases List.mem_append.mp hb with hb | hb
    · exact h.sentBatch n b hb
    · obtain ⟨rfl, rfl⟩ := Prod.mk.inj (List.mem_singleton.mp hb)
      exact h.sendingBatch w n b hsending
  · cases result with
    | ok b => cases hx
    | error err => exact Or.inr ⟨seq, err, List.mem_append_right _ (List.mem_singleton_self _)⟩

/-- Every action keeps the invariant. It is proved action by action, each of which moves one chunk
from one place to the next. -/
theorem Inv.step {s' : State run} (h : s.Inv) (hstep : Step s s') : s'.Inv := by
  cases hstep with
  | pop w seq hidle hpop => exact h.of_worker rfl rfl fun _ hflow => hflow.pop hidle hpop
  | quit w hidle hempty =>
      refine h.of_worker rfl rfl fun _ hflow => ?_
      refine hflow.setWorker w s.queue s.channel ?_
        (fun n hn => by cases hn) (fun n b hn => by cases hn) hflow.sent hflow.sentBatch id
        (fun _ _ => id) (fun _ => Or.inl hempty)
      rw [hidle]
      rfl
  | enter w seq next hwaiting hnext hopen =>
      exact h.of_worker rfl rfl fun _ hflow => hflow.enter hwaiting hnext hopen
  | withdraw w seq hwaiting hnone =>
      refine h.of_worker rfl rfl fun _ hflow => ?_
      -- while chunks are received the window stands at a chunk, so no worker withdraws
      cases hflow.dispatch.symm.trans hnone
  | parse w seq result hparsing hresult =>
      exact h.of_worker rfl rfl fun _ hflow => hflow.parse hparsing hresult
  | send w seq result hsending halive hroom =>
      exact h.of_worker rfl rfl fun _ hflow => hflow.send hsending
  | disconnected w seq result hsending hdead =>
      exact h.of_worker rfl rfl fun hphase _ => absurd hphase hdead
  -- the steps of the coordinator
  | receive seq result rest hphase hchannel =>
      have hflow : s.Flow := by simpa [State.Inv, hphase] using h
      exact hflow.receive hchannel
  | close hphase hchannel hstopped =>
      have hflow : s.Flow := by simpa [State.Inv, hphase] using h
      have hdone := hflow.complete hchannel hstopped
      exact ⟨⟨_, hdone⟩, hflow.pending_le, fun _ => hdone⟩
  | release result hphase =>
      have hset : @Settled β ε run s.coordinator result := by simpa [State.Inv, hphase] using h
      exact ⟨hset.consumed, hset.pending, hset.ok⟩
  | join result hphase hstopped =>
      have hset : @Settled β ε run s.coordinator result := by simpa [State.Inv, hphase] using h
      exact hset

/-- The invariant holds in every interleaving. -/
theorem inv_of_reachable (h : Reachable run s) : s.Inv := by
  induction h with
  | refl => exact initial_flow run
  | tail _ hstep ih => exact ih.step hstep

end State

/-- In every interleaving the consumed batches are those of the first chunks in order, no more are
held back than the reorder bound allows, the worker that holds the next chunk is not blocked while
the coordinator waits, and a run that returns `Ok` has consumed every chunk exactly once. -/
theorem ordered_delivery {s : State run} (h : Reachable run s) :
    (∃ k, s.coordinator.consumed = (List.range k).map run.batch) ∧
      s.coordinator.pending.keys.length ≤ run.maxReorder ∧
      (s.phase = .receiving → ∀ w, s.workers w = .waiting s.coordinator.nextSeq → ¬ s.Blocked w) ∧
      (s.phase = .returned (.ok ()) →
        s.coordinator.consumed = (List.range run.numChunks).map run.batch) := by
  have hinv := State.inv_of_reachable h
  rw [State.Inv] at hinv
  cases hphase : s.phase with
  | receiving =>
      rw [hphase] at hinv
      exact ⟨⟨_, hinv.consumed⟩, hinv.pending_le, fun _ w hw => hinv.not_blocked hw, nofun⟩
  | ended result =>
      rw [hphase] at hinv
      exact ⟨hinv.consumed, hinv.pending, nofun, nofun⟩
  | joining result =>
      rw [hphase] at hinv
      exact ⟨hinv.consumed, hinv.pending, nofun, nofun⟩
  | returned result =>
      rw [hphase] at hinv
      refine ⟨hinv.consumed, hinv.pending, nofun, fun hret => ?_⟩
      cases hret
      exact hinv.ok rfl

section Examples

/-- A run over two chunks by two workers. -/
def twoChunks : Run Nat String where
  numChunks := 2
  numChunks_le := by decide
  threads := 2
  maxReorderOpt := 0
  maxInFlight := 2
  strict := false
  allowance := 0
  size := fun _ => 0
  batch := fun seq => 10 + seq
  consume := fun _ _ => none
  memory := fun _ _ => "memory"

/-- The worker that parses the first chunk, and the one that parses the second. -/
def firstWorker : Fin twoChunks.workers := ⟨0, by decide⟩

def secondWorker : Fin twoChunks.workers := ⟨1, by decide⟩

/-- The second chunk is received before the first, is held back, and is consumed after it. -/
theorem twoChunks_returns : ∃ s s', Reachable twoChunks s ∧ s.coordinator.pending.keys = [1] ∧
    Relation.ReflTransGen Step s s' ∧ s'.phase = .returned (.ok ()) := by
  have hparsed : ∀ seq b : Nat, (.ok (10 + seq) : Except String Nat) = .ok b →
      b = twoChunks.batch seq := fun seq b hb => (Except.ok.inj hb).symm
  have hpop := Step.pop (s := State.initial twoChunks) firstWorker 0 rfl rfl
  have hpop' := (Relation.ReflTransGen.single hpop).tail (.pop secondWorker 1 rfl rfl)
  have henter := hpop'.tail (.enter firstWorker 0 0 rfl rfl (by decide))
  have hparse := henter.tail (.parse firstWorker 0 (.ok 10) rfl (hparsed 0))
  -- the second worker is faster
  have henter' := hparse.tail (.enter secondWorker 1 0 rfl rfl (by decide))
  have hparse' := henter'.tail (.parse secondWorker 1 (.ok 11) rfl (hparsed 1))
  have hsend' := hparse'.tail (.send secondWorker 1 (.ok 11) rfl rfl (by decide))
  have hreceive' := hsend'.tail (.receive 1 (.ok 11) [] rfl rfl)
  have hboth : ∀ w : Fin 2, w = 0 ∨ w = 1 := by decide
  exact ⟨_, _, hreceive', rfl,
    .head (.send firstWorker 0 (.ok 10) rfl rfl (by decide)) <|
    .head (.receive 0 (.ok 10) [] rfl rfl) <|
    .head (.quit firstWorker rfl rfl) <| .head (.quit secondWorker rfl rfl) <|
    .head (.close rfl rfl fun w => by rcases hboth w with rfl | rfl <;> rfl) <|
    .head (.release (.ok ()) rfl) <|
    .single (.join (.ok ()) rfl fun w => by rcases hboth w with rfl | rfl <;> rfl), rfl⟩

/-- The run delivers its batches in the order of the chunks. -/
theorem twoChunks_delivered : ∃ s s', Reachable twoChunks s ∧ s.coordinator.pending.keys = [1] ∧
    Relation.ReflTransGen Step s s' ∧ s'.coordinator.consumed = [10, 11] := by
  obtain ⟨s, s', hs, hpending, hs', hreturned⟩ := twoChunks_returns
  exact ⟨s, s', hs, hpending, hs', (ordered_delivery (hs.trans hs')).2.2.2 hreturned⟩

end Examples

end Stream

end Rypipe
