import Xv6Kernel.IdeQueue

/-!
# The statements of the IDE driver

What each statement of `iderw` and of `ideintr`, and each step of the drive, does
to the queue, to the drive and to the callers.
-/

namespace Xv6Kernel

open TraceExecution LinkedQueue Function Option List

/-! ## Callers -/

section Users

variable {n : ℕ} {B : Type} {disk : ℕ → Block}
variable {arrived : List (IdeRequest B)} {done taken r : ℕ}
variable {buf buf' : B → Buf} {k : IdeUser B} {b : B} {v : Buf}
variable {user : Fin n → IdeUser B} {p q : Fin n} {request : IdeRequest B}

theorem Placed.frame (more : List (IdeRequest B)) (hplaced : Placed disk arrived done buf b r)
    (hbuf : buf' b = buf b) : Placed disk (arrived ++ more) done buf' b r := by
  obtain ⟨request, hrequest, hb, hresult⟩ := hplaced
  have hr : r < arrived.length := (List.getElem?_eq_some_iff.mp hrequest).1
  refine ⟨request, ?_, hb, ?_⟩
  · rw [getElem?_append_left hr]
    exact hrequest
  · intro hdone
    rw [hbuf, resultAt_append hr.le]
    exact hresult hdone

theorem UserOk.frame (more : List (IdeRequest B)) (hk : UserOk disk arrived done buf k)
    (hbuf : ∀ b ∈ k.mine, buf' b = buf b) : UserOk disk (arrived ++ more) done buf' k := by
  obtain ⟨pos, mine⟩ := k
  obtain ⟨hlocked, hpos⟩ := hk
  refine ⟨?_, ?_⟩
  · intro b hb
    rw [hbuf b hb]
    exact hlocked b hb
  · cases pos with
    | check b | acquire b | setNext b | find b pp | link b pp =>
      refine ⟨hpos.1, ?_⟩
      rw [hbuf b hpos.1]
      exact hpos.2
    | startTest b r | start b r | wait b r =>
      exact ⟨hpos.1, hpos.2.frame more (hbuf b hpos.1)⟩
    | unlock b r =>
      exact ⟨hpos.1, hpos.2.1.frame more (hbuf b hpos.1), hpos.2.2⟩
    | _ => trivial

theorem UserOk.of_request (hk : UserOk disk arrived done buf k)
    (hrequest : k.pos.request = some (b, r)) : b ∈ k.mine ∧ Placed disk arrived done buf b r := by
  obtain ⟨pos, mine⟩ := k
  cases pos <;> simp only [IdePc.request, some.injEq, Prod.mk.injEq,
    reduceCtorEq] at hrequest
  case startTest | start | wait =>
    obtain ⟨rfl, rfl⟩ := hrequest
    exact hk.2
  case unlock =>
    obtain ⟨rfl, rfl⟩ := hrequest
    exact ⟨hk.2.1, hk.2.2.1⟩

theorem UserOk.advance {done' : ℕ} (hk : UserOk disk arrived done buf k)
    (hle : done ≤ done') (hearlier : ∀ b r, k.pos.request = some (b, r) →
      r < done' → r < done) : UserOk disk arrived done' buf k := by
  have hplaced : ∀ b r, k.pos.request = some (b, r) →
      Placed disk arrived done buf b r → Placed disk arrived done' buf b r := by
    rintro b r hr ⟨request, hrequest, hb, hresult⟩
    exact ⟨request, hrequest, hb, fun hlt => hresult (hearlier b r hr hlt)⟩
  obtain ⟨pos, mine⟩ := k
  obtain ⟨hlocked, hpos⟩ := hk
  refine ⟨hlocked, ?_⟩
  cases pos with
  | startTest b r | start b r | wait b r =>
    exact ⟨hpos.1, hplaced b r rfl hpos.2⟩
  | unlock b r =>
    exact ⟨hpos.1, hplaced b r rfl hpos.2.1, hpos.2.2.trans_le hle⟩
  | _ => exact hpos

theorem UserOk.replace {done' : ℕ} (hk : UserOk disk arrived done buf k)
    (hrequest : k.pos.request = some (b, done)) (hlocked : ∀ c ∈ k.mine, (buf' c).locked = true)
    (hplaced : Placed disk arrived done' buf' b done) : UserOk disk arrived done' buf' k := by
  have hmine := (hk.of_request hrequest).1
  obtain ⟨pos, mine⟩ := k
  refine ⟨hlocked, ?_⟩
  cases pos <;> simp only [IdePc.request, some.injEq, Prod.mk.injEq,
    reduceCtorEq] at hrequest
  case startTest | start | wait =>
    obtain ⟨rfl, rfl⟩ := hrequest
    exact ⟨hmine, hplaced⟩
  case unlock =>
    obtain ⟨rfl, rfl⟩ := hrequest
    exact (Nat.lt_irrefl _ hk.2.2.2).elim

namespace UsersOk

section

variable (hu : UsersOk disk arrived done buf user taken)

include hu

theorem owner (hr : done ≤ r) (hrequest : arrived[r]? = some request)
    (hb : request.buf ∈ (user p).mine) : (user p).pos.request = some (request.buf, r) := by
  obtain ⟨q, hq⟩ := hu.flight r request hr hrequest
  obtain rfl := hu.apart p q request.buf hb ((hu.each q).of_request hq).1
  exact hq

theorem notMem_queue (hnone : (user p).pos.request = none) (hb : b ∈ (user p).mine) :
    b ∉ (arrived.drop done).map (·.buf) := by
  intro hmem
  obtain ⟨request, hrequest, rfl⟩ := mem_map.mp hmem
  obtain ⟨i, hi⟩ := mem_iff_getElem?.mp hrequest
  rw [getElem?_drop] at hi
  have howner := hu.owner (Nat.le_add_right done i) hi hb
  simp [hnone] at howner

theorem index_unique {r' : ℕ} {request' : IdeRequest B} (hr : done ≤ r) (hr' : done ≤ r')
    (hrequest : arrived[r]? = some request) (hrequest' : arrived[r']? = some request')
    (hbuf : request.buf = request'.buf) : r = r' := by
  obtain ⟨p, hp⟩ := hu.flight r request hr hrequest
  have hmine := ((hu.each p).of_request hp).1
  rw [hbuf] at hmine
  have hp' := hu.owner hr' hrequest' hmine
  rw [hp] at hp'
  simpa [hbuf] using hp'

theorem nodup : ((arrived.drop done).map (·.buf)).Nodup := by
  rw [nodup_iff_getElem?_ne_getElem?]
  intro i j hij hj heq
  simp only [length_map, length_drop] at hj
  have hjlt : done + j < arrived.length := by omega
  have hilt : done + i < arrived.length := by omega
  simp only [getElem?_map, getElem?_drop, getElem?_eq_getElem hjlt, getElem?_eq_getElem hilt,
    map_some, some.injEq] at heq
  have hsame := hu.index_unique (Nat.le_add_right done i)
    (Nat.le_add_right done j) (getElem?_eq_getElem hilt)
    (getElem?_eq_getElem hjlt) heq
  omega

theorem change
    (hmine : ∀ q, q ≠ p → ∀ b ∈ k.mine, b ∉ (user q).mine)
    (hk : UserOk disk arrived done buf' k)
    (hbuf : ∀ q, q ≠ p → ∀ b ∈ (user q).mine, buf' b = buf b)
    (hrequest : ∀ b r, done ≤ r → (user p).pos.request = some (b, r) →
      k.pos.request = some (b, r) ∧ buf' b = buf b) :
    UsersOk disk arrived done buf' (update user p k) taken := by
  constructor
  case accept => exact hu.accept
  case apart =>
    intro q q' b hq hq'
    by_cases hqp : q = p
    · by_cases hqp' : q' = p
      · rw [hqp, hqp']
      · subst hqp
        rw [update_self] at hq
        rw [update_of_ne hqp'] at hq'
        exact (hmine q' hqp' b hq hq').elim
    · rw [update_of_ne hqp] at hq
      by_cases hqp' : q' = p
      · subst hqp'
        rw [update_self] at hq'
        exact (hmine q hqp b hq' hq).elim
      · rw [update_of_ne hqp'] at hq'
        exact hu.apart q q' b hq hq'
  case each =>
    intro q
    by_cases hqp : q = p
    · subst hqp
      rw [update_self]
      exact hk
    · rw [update_of_ne hqp]
      simpa using (hu.each q).frame [] (hbuf q hqp)
  case flight =>
    intro r request hr hreq
    obtain ⟨q, hq⟩ := hu.flight r request hr hreq
    refine ⟨q, ?_⟩
    by_cases hqp : q = p
    · subst hqp
      rw [update_self]
      exact (hrequest _ _ hr hq).1
    · rw [update_of_ne hqp]
      exact hq
  case fresh =>
    intro r request hr hreq
    rw [← hu.fresh r request hr hreq]
    obtain ⟨q, hq⟩ := hu.flight r request (by omega) hreq
    by_cases hqp : q = p
    · subst hqp
      exact (hrequest _ _ (by omega) hq).2
    · exact hbuf q hqp _ ((hu.each q).of_request hq).1

theorem move {pos : IdePc B} (hk : UserOk disk arrived done buf ⟨pos, (user p).mine⟩)
    (hrequest : ∀ b r, done ≤ r → (user p).pos.request = some (b, r) → pos.request = some (b, r)) :
    UsersOk disk arrived done buf
      (update user p ⟨pos, (user p).mine⟩) taken := by
  apply hu.change ?_ hk (fun _ _ _ _ => rfl)
  · intro b r hr hp
    exact ⟨hrequest b r hr hp, rfl⟩
  · intro q hq b hb hb'
    exact hq (hu.apart q p b hb' hb)

theorem take : UsersOk disk arrived done buf user (taken + 1) :=
  ⟨hu.accept, hu.apart, hu.each, hu.flight,
    fun r request hr => hu.fresh r request (by omega)⟩

end

theorem arrive {pp : Option B} (hu : UsersOk disk arrived done buf user 0)
    (hpos : (user p).pos = .link b pp) (hdone : done ≤ arrived.length) :
    UsersOk disk (arrived ++ [⟨b, buf b⟩]) done buf
      (update user p ⟨.startTest b arrived.length, (user p).mine⟩)
      0 := by
  obtain ⟨hlocked, hmine⟩ := hu.each p
  simp only [hpos] at hmine
  have hlast : (arrived ++ [⟨b, buf b⟩])[arrived.length]? = some ⟨b, buf b⟩ := by simp
  constructor
  case accept =>
    intro request hmem
    rw [mem_append, mem_singleton] at hmem
    rcases hmem with hmem | rfl
    · exact hu.accept request hmem
    · exact hmine.2
  case apart =>
    intro q q' c hq hq'
    apply hu.apart q q' c
    · by_cases hqp : q = p
      · simpa [hqp] using hq
      · simpa [hqp] using hq
    · by_cases hqp : q' = p
      · simpa [hqp] using hq'
      · simpa [hqp] using hq'
  case each =>
    intro q
    by_cases hqp : q = p
    · subst hqp
      rw [update_self]
      exact ⟨hlocked, hmine.1, ⟨b, buf b⟩, hlast, rfl, by omega⟩
    · rw [update_of_ne hqp]
      exact (hu.each q).frame _ (fun _ _ => rfl)
  case flight =>
    intro r request hr hreq
    by_cases hlt : r < arrived.length
    · rw [getElem?_append_left hlt] at hreq
      obtain ⟨q, hq⟩ := hu.flight r request hr hreq
      have hqp : q ≠ p := by
        rintro rfl
        simp [hpos, IdePc.request] at hq
      refine ⟨q, ?_⟩
      rw [update_of_ne hqp]
      exact hq
    · obtain ⟨hle, _⟩ := List.getElem?_eq_some_iff.mp hreq
      obtain rfl : r = arrived.length := by
        simp only [length_append, length_singleton] at hle
        omega
      rw [hlast, some.injEq] at hreq
      subst hreq
      exact ⟨p, by simp [IdePc.request]⟩
  case fresh =>
    intro r request hr hreq
    by_cases hlt : r < arrived.length
    · rw [getElem?_append_left hlt] at hreq
      exact hu.fresh r request hr hreq
    · obtain ⟨hle, _⟩ := List.getElem?_eq_some_iff.mp hreq
      obtain rfl : r = arrived.length := by
        simp only [length_append, length_singleton] at hle
        omega
      rw [hlast, some.injEq] at hreq
      subst hreq
      rfl

variable [DecidableEq B]

theorem each_serving {done' : ℕ} (hu : UsersOk disk arrived done buf user taken)
    (hrequest : arrived[done]? = some request) (hlocked : v.locked = true)
    (hle : done ≤ done') (hle' : done' ≤ done + 1)
    (hresult : done < done' → v = resultAt disk arrived done request) (p) :
    UserOk disk arrived done' (update buf request.buf v)
      (user p) := by
  have hp := hu.each p
  by_cases hb : request.buf ∈ (user p).mine
  · apply hp.replace (hu.owner le_rfl hrequest hb)
    · intro c hc
      by_cases hcb : c = request.buf
      · simpa [hcb] using hlocked
      · rw [update_of_ne hcb]
        exact hp.1 c hc
    · refine ⟨request, hrequest, rfl, ?_⟩
      rw [update_self]
      exact hresult
  · have hbuf : ∀ c ∈ (user p).mine,
        update buf request.buf v c = buf c := by
      intro c hc
      rw [update_of_ne]
      rintro rfl
      exact hb hc
    have hframe := hp.frame [] hbuf
    rw [append_nil] at hframe
    apply hframe.advance hle
    intro c r hr hlt
    by_contra hge
    obtain rfl : r = done := by omega
    obtain ⟨hc, request', hrequest', rfl, _⟩ := hp.of_request hr
    rw [hrequest, some.injEq] at hrequest'
    subst hrequest'
    exact hb hc

section

variable (hu : UsersOk disk arrived done buf user 1)

include hu

theorem fresh_serving (hrequest : arrived[done]? = some request) {request' : IdeRequest B}
    (hr : done + 1 ≤ r) (hrequest' : arrived[r]? = some request') :
    update buf request.buf v request'.buf = request'.before := by
  have hne : request'.buf ≠ request.buf := by
    intro heq
    have hsame := hu.index_unique (by omega) le_rfl hrequest' hrequest heq
    omega
  rw [update_of_ne hne]
  exact hu.fresh r request' hr hrequest'

theorem serving (hrequest : arrived[done]? = some request) (hlocked : v.locked = true) :
    UsersOk disk arrived done (update buf request.buf v) user 1 :=
  ⟨hu.accept, hu.apart,
    hu.each_serving hrequest hlocked le_rfl (Nat.le_succ done)
      (fun hlt => (Nat.lt_irrefl _ hlt).elim),
    hu.flight, fun _ _ => hu.fresh_serving hrequest⟩

theorem complete (hrequest : arrived[done]? = some request)
    (hresult : v = resultAt disk arrived done request) (hlocked : v.locked = true) :
    UsersOk disk arrived (done + 1) (update buf request.buf v) user
      0 :=
  ⟨hu.accept, hu.apart,
    hu.each_serving hrequest hlocked (Nat.le_succ done) le_rfl
      (fun _ => hresult),
    fun r request hr => hu.flight r request (by omega),
    fun _ _ => hu.fresh_serving hrequest⟩

end

end UsersOk

end Users

namespace QueueOk

variable {B : Type} {arrived : List (IdeRequest B)} {completed started : List B}
variable {qnext : B → Option B} {idequeue : Option B} {stage : IdeStage B}
variable {request : IdeRequest B} {b : B}

theorem done_le (hq : QueueOk arrived completed started qnext idequeue stage) :
    completed.length ≤ arrived.length := by
  have hlength := congrArg length hq.completed_eq
  simp only [length_map, length_take] at hlength
  omega

theorem head (hq : QueueOk arrived completed started qnext idequeue stage)
    (htaken : stage.taken = 0) : idequeue = (arrived[completed.length]?).map (·.buf) := by
  have hlinked := hq.linked
  rw [htaken, Nat.add_zero] at hlinked
  rw [hlinked.head_eq, head?_map, head?_drop]

theorem drop_of_head (hrequest : arrived[completed.length]? = some request) :
    arrived.drop completed.length =
      request :: arrived.drop (completed.length + 1) := by
  obtain ⟨hlt, rfl⟩ := List.getElem?_eq_some_iff.mp hrequest
  exact drop_eq_getElem_cons hlt

theorem take_map_succ (hrequest : arrived[completed.length]? = some request) :
    (arrived.take (completed.length + 1)).map (·.buf) =
      (arrived.take completed.length).map (·.buf) ++ [request.buf] := by
  rw [take_add_one, hrequest]
  simp

theorem setNext [DecidableEq B] {value : Option B}
    (hq : QueueOk arrived completed started qnext idequeue .steady)
    (hb : b ∉ (arrived.drop completed.length).map (·.buf)) :
    QueueOk arrived completed started (update qnext b value) idequeue
      .steady :=
  ⟨hq.linked.update_of_notMem hb, hq.completed_eq, hq.started_eq, hq.popped⟩

theorem start (hq : QueueOk arrived completed started qnext idequeue .unstarted)
    (hrequest : arrived[completed.length]? = some request) :
    QueueOk arrived completed (started ++ [request.buf]) qnext idequeue
      .steady := by
  refine ⟨hq.linked, hq.completed_eq, ?_, by simp⟩
  rw [hq.started_eq]
  exact (take_map_succ hrequest).symm

theorem settle (hq : QueueOk arrived completed started qnext idequeue .unstarted)
    (hempty : arrived.length = completed.length) :
    QueueOk arrived completed started qnext idequeue .steady := by
  refine ⟨hq.linked, hq.completed_eq, ?_, by simp⟩
  rw [hq.started_eq, take_of_length_le (by omega), take_of_length_le (by omega)]

theorem pop (hq : QueueOk arrived completed started qnext idequeue .steady)
    (hrequest : arrived[completed.length]? = some request) :
    QueueOk arrived completed started qnext (qnext request.buf)
      (.popped request.buf) := by
  have hlinked := hq.linked
  simp only [IdeStage.taken, Nat.add_zero] at hlinked
  rw [drop_of_head hrequest] at hlinked
  refine ⟨hlinked.2, hq.completed_eq, hq.started_eq, ?_⟩
  rintro b heq
  cases heq
  exact ⟨request, hrequest, rfl⟩

theorem complete (hq : QueueOk arrived completed started qnext idequeue (.popped request.buf))
    (hrequest : arrived[completed.length]? = some request) :
    QueueOk arrived (completed ++ [request.buf]) started qnext idequeue
      .unstarted := by
  have hlength : (completed ++ [request.buf]).length = completed.length + 1 := by
    simp
  refine ⟨?_, ?_, ?_, by simp⟩
  · rw [hlength]
    exact hq.linked
  · rw [hlength, take_map_succ hrequest, ← hq.completed_eq]
  · rw [hlength]
    exact hq.started_eq

theorem arrive_first {v : Buf} (hq : QueueOk arrived completed started qnext idequeue .steady)
    (hnext : qnext b = none) (hempty : arrived.length = completed.length) :
    QueueOk (arrived ++ [⟨b, v⟩]) completed started qnext (some b)
      .unstarted := by
  refine ⟨?_, ?_, ?_, by simp⟩
  · simp only [IdeStage.taken, Nat.add_zero, ← hempty, drop_left]
    exact linked_singleton hnext
  · rw [take_append_of_le_length hempty.ge]
    exact hq.completed_eq
  · rw [hq.started_eq]
    simp only [IdeStage.flying, Nat.add_zero]
    rw [take_append_of_le_length hempty.ge,
      take_of_length_le (by omega), take_of_length_le (by omega)]

theorem arrive_behind [DecidableEq B] {v : Buf} {last : B}
    (hq : QueueOk arrived completed started qnext idequeue .steady)
    (hnodup : ((arrived.drop completed.length).map (·.buf)).Nodup)
    (hb : b ∉ (arrived.drop completed.length).map (·.buf)) (hnext : qnext b = none)
    (hlast : ((arrived.drop completed.length).map (·.buf)).getLast? = some last) :
    QueueOk (arrived ++ [⟨b, v⟩]) completed started
      (update qnext last (some b)) idequeue .steady := by
  have hlt : completed.length < arrived.length := by
    by_contra hle
    rw [drop_eq_nil_of_le (by omega)] at hlast
    simp at hlast
  refine ⟨?_, ?_, ?_, by simp⟩
  · simp only [IdeStage.taken, Nat.add_zero]
    rw [drop_append_of_le_length hlt.le, map_append]
    exact hq.linked.append hnodup hb hnext hlast
  · rw [take_append_of_le_length hlt.le]
    exact hq.completed_eq
  · rw [take_append_of_le_length (by simp [IdeStage.flying]; omega)]
    exact hq.started_eq

end QueueOk

/-! ## The drive -/

theorem ideSector_eq {blockno : ℕ} (h : blockno < fssize) : ideSector blockno = blockno := by
  have hlt : blockno < 1000 := h
  unfold ideSector
  omega

namespace DriveOk

variable {C B : Type} {disk : ℕ → Block} {arrived : List (IdeRequest B)}
variable {done : ℕ} {drive : IdeDrive} {signals signals' : C → Prop}
variable {stage : IdeStage B} {request : IdeRequest B} {c : C}

theorem quiet_of (hd : DriveOk disk arrived done drive signals stage)
    (hstage : stage = .unstarted ∨ stage = .steady ∧ arrived.length = done) :
    drive.command = none ∧ drive.irq = false ∧ (∀ c, ¬ signals c) ∧
      drive.disk 1 = diskAfter disk (arrived.take done) := by
  cases hd with
  | quiet _ hcommand hirq hsignals hdisk =>
    exact ⟨hcommand, hirq, hsignals, hdisk⟩
  | @busy request hrequest =>
    have hempty : arrived.length = done := by simpa using hstage
    simp [hempty.le] at hrequest
  | raised _ _ _ hdisk | handled _ _ _ hdisk =>
    have hempty : arrived.length = done := by simpa using hstage
    obtain ⟨request, hrequest, _⟩ := hdisk
    simp [hempty.le] at hrequest
  | popped => simp at hstage

theorem start (hd : DriveOk disk arrived done drive signals .unstarted)
    (hrequest : arrived[done]? = some request) :
    DriveOk disk arrived done
      { drive with command := some (ideCommand request.before) } signals
      .steady := by
  obtain ⟨_, hirq, hsignals, hdisk⟩ := hd.quiet_of (Or.inl rfl)
  exact .busy hrequest rfl hirq hsignals hdisk

theorem settle (hd : DriveOk disk arrived done drive signals .unstarted)
    (hempty : arrived.length = done) : DriveOk disk arrived done drive signals .steady := by
  obtain ⟨hcommand, hirq, hsignals, hdisk⟩ := hd.quiet_of (Or.inl rfl)
  exact .quiet (Or.inr ⟨rfl, hempty⟩) hcommand hirq hsignals hdisk

theorem performed_append {more : List (IdeRequest B)} (hdisk : Performed disk arrived done drive) :
    done < arrived.length ∧ Performed disk (arrived ++ more) done drive := by
  obtain ⟨request, hrequest, hdisk, hlatch⟩ := hdisk
  have hlt : done < arrived.length := (List.getElem?_eq_some_iff.mp hrequest).1
  refine ⟨hlt, request, ?_, ?_, ?_⟩
  · rw [getElem?_append_left hlt]
    exact hrequest
  · rw [take_append_of_le_length hlt]
    exact hdisk
  · rw [take_append_of_le_length hlt.le]
    exact hlatch

theorem arrive (more : List (IdeRequest B)) (hd : DriveOk disk arrived done drive signals .steady) :
    DriveOk disk (arrived ++ more) done drive signals
      (if arrived.length = done then .unstarted else .steady) := by
  cases hd with
  | quiet hstage hcommand hirq hsignals hdisk =>
    have hempty : arrived.length = done := by simpa using hstage
    rw [if_pos hempty]
    refine .quiet (Or.inl rfl) hcommand hirq hsignals ?_
    rw [take_append_of_le_length hempty.ge]
    exact hdisk
  | @busy request hrequest hcommand hirq hsignals hdisk =>
    have hlt : done < arrived.length := (List.getElem?_eq_some_iff.mp hrequest).1
    rw [if_neg hlt.ne']
    refine .busy ?_ hcommand hirq hsignals ?_
    · rw [getElem?_append_left hlt]
      exact hrequest
    · rw [take_append_of_le_length hlt.le]
      exact hdisk
  | raised hcommand hirq hsignals hdisk =>
    obtain ⟨hlt, hdisk⟩ := performed_append hdisk
    rw [if_neg hlt.ne']
    exact .raised hcommand hirq hsignals hdisk
  | handled hcommand hirq hsignals hdisk =>
    obtain ⟨hlt, hdisk⟩ := performed_append hdisk
    rw [if_neg hlt.ne']
    exact .handled hcommand hirq hsignals hdisk

theorem signal (hd : DriveOk disk arrived done drive signals stage) (hirq : drive.irq = true)
    (hsignals : ∀ d, signals' d ↔ signals d ∨ d = c) :
    DriveOk disk arrived done { drive with irq := false } signals' stage := by
  cases hd with
  | raised hcommand _ hnone hdisk =>
    refine .handled (c := c) hcommand rfl ?_ hdisk
    intro d
    rw [hsignals d]
    simp [hnone d]
  | quiet _ _ hfalse | busy _ _ hfalse | handled _ hfalse
  | popped _ hfalse => simp [hfalse] at hirq

theorem pop (hd : DriveOk disk arrived done drive signals .steady)
    (hc : signals c) (hsignals : ∀ d, signals' d ↔ signals d ∧ d ≠ c) :
    ∃ request, arrived[done]? = some request ∧
      DriveOk disk arrived done drive signals' (.popped request.buf) := by
  cases hd with
  | @handled e hcommand hirq hsame hdisk =>
    obtain rfl := (hsame c).mp hc
    have ⟨request, hrequest, _⟩ := hdisk
    refine ⟨request, hrequest, .popped hcommand hirq ?_ hdisk⟩
    intro d
    rw [hsignals d, hsame d]
    simp
  | quiet _ _ _ hnone | busy _ _ _ hnone | raised _ _ hnone =>
    exact (hnone c hc).elim

theorem complete {b : B} (hd : DriveOk disk arrived done drive signals (.popped b)) :
    DriveOk disk arrived (done + 1) drive signals .unstarted := by
  cases hd with
  | quiet hstage => simp at hstage
  | popped hcommand hirq hsignals hdisk =>
    obtain ⟨_, _, hdisk, _⟩ := hdisk
    exact .quiet (Or.inl rfl) hcommand hirq hsignals hdisk

theorem performed_of_popped {b : B} (hd : DriveOk disk arrived done drive signals (.popped b)) :
    Performed disk arrived done drive := by
  cases hd with
  | quiet hstage => simp at hstage
  | popped _ _ _ hdisk => exact hdisk

theorem disk_cases (hd : DriveOk disk arrived done drive signals stage) :
    drive.disk 1 = diskAfter disk (arrived.take done) ∨
      drive.disk 1 = diskAfter disk (arrived.take (done + 1)) := by
  cases hd with
  | quiet _ _ _ _ hdisk | busy _ _ _ _ hdisk => exact Or.inl hdisk
  | raised _ _ _ hdisk | handled _ _ _ hdisk | popped _ _ _ hdisk =>
    obtain ⟨_, _, hdisk, _⟩ := hdisk
    exact Or.inr hdisk

end DriveOk

section Device

variable {C B : Type} {disk : ℕ → Block} {mem mem' : IdeMem B}
variable {signals : C → Prop} {stage : IdeStage B}

theorem ideComplete_ok (hmem : ideComplete mem = .ok mem')
    (haccept : ∀ request ∈ mem.arrived, Acceptable request.before)
    (hd : DriveOk disk mem.arrived mem.completed.length mem.drive signals stage) :
    ∃ drive, mem' = { mem with drive := drive } ∧
      DriveOk disk mem.arrived mem.completed.length drive signals stage := by
  simp only [ideComplete, bind_eq_ok, awaitSome_eq_ok] at hmem
  obtain ⟨command, hsome, hmem⟩ := hmem
  cases hd with
  | @busy request hrequest hcommand _ hsignals hdisk =>
    rw [hcommand, some.injEq] at hsome
    subst hsome
    have hok := haccept request (mem_of_getElem? hrequest)
    have hdrive : (ideCommand request.before).drive = 1 := by
      simp [ideCommand, hok.dev]
    have hsector : (ideCommand request.before).sector =
        request.before.blockno := ideSector_eq hok.blockno
    cases hdirty : request.before.dirty with
    | true =>
      simp only [ideCommand, hdirty, if_true, pure_eq_ok] at hmem
      subst hmem
      refine ⟨_, rfl, .raised rfl rfl hsignals ⟨request, hrequest, ?_, ?_⟩⟩
      · simp only [ideCommand] at hdrive hsector
        rw [diskAfter_succ hrequest]
        simp [hdrive, hsector, serve, hdirty, hdisk]
      · simp [hdirty]
    | false =>
      simp only [ideCommand, hdirty, Bool.false_eq_true, if_false, pure_eq_ok] at hmem
      subst hmem
      refine ⟨_, rfl, .raised rfl rfl hsignals ⟨request, hrequest, ?_, ?_⟩⟩
      · rw [diskAfter_succ hrequest]
        simp [serve, hdirty, hdisk]
      · simp only [ideCommand] at hdrive hsector
        simp [hdrive, hsector, hdisk]
  | quiet _ hnone | raised hnone | handled hnone | popped hnone =>
    simp [hnone] at hsome

end Device

/-! ## The statements -/

section Statements

variable {n : ℕ} {C B : Type} [DecidableEq B] {disk : ℕ → Block}
variable {mem mem' : IdeMem B} {user : Fin n → IdeUser B}
variable {signals signals' : C → Prop} {pos pos' : IdePc B} {c : C}
variable {p : Fin n} {b d : B} {pp : Option B} {r : ℕ} {k : IdeUser B}

theorem HolderOk.frame {arrived : List (IdeRequest B)} {done : ℕ}
    {buf buf' : B → Buf} {qnext : B → Option B} {idequeue : Option B}
    (hh : HolderOk disk arrived done buf qnext idequeue pos)
    (hbuf : ∀ b, pos.stage idequeue = .popped b → buf' b = buf b) :
    HolderOk disk arrived done buf' qnext idequeue pos := by
  cases pos with
  | intrRead b | intrValid b | intrClean b =>
    intro request hrequest
    rw [hbuf b rfl]
    exact hh request hrequest
  | _ => exact hh

namespace IdeOk

section

variable (h : IdeOk disk mem user signals pos)

include h

theorem repos (hstage : pos'.stage mem.idequeue = pos.stage mem.idequeue)
    (hholder : HolderOk disk mem.arrived mem.completed.length mem.buf mem.qnext mem.idequeue pos') :
    IdeOk disk mem user signals pos' := by
  refine ⟨h.havedisk1, ?_, ?_, ?_, hholder⟩
  · rw [hstage]
    exact h.queue
  · rw [hstage]
    exact h.drive
  · rw [hstage]
    exact h.users

theorem move
    (hk : UserOk disk mem.arrived mem.completed.length mem.buf
      ⟨pos', (user p).mine⟩)
    (hrequest : ∀ b r, mem.completed.length ≤ r →
      (user p).pos.request = some (b, r) → pos'.request = some (b, r)) :
    IdeOk disk mem (update user p ⟨pos', (user p).mine⟩) signals
      pos :=
  ⟨h.havedisk1, h.queue, h.drive, h.users.move hk hrequest, h.holder⟩

theorem modify {f : Buf → Buf} {mine : Finset B} (hidle : (user p).pos = .idle)
    (hfree : ∀ q, q ≠ p → b ∉ (user q).mine) (hmine : ∀ c ∈ mine, c = b ∨ c ∈ (user p).mine)
    (hlocked : b ∈ mine → (f (mem.buf b)).locked = true) :
    IdeOk disk (mem.setBuf b f) (update user p ⟨.idle, mine⟩) signals
      pos := by
  have hother : ∀ q, q ≠ p → ∀ c ∈ (user q).mine,
      (mem.setBuf b f).buf c = mem.buf c := by
    intro q hq c hc
    have hcb : c ≠ b := fun heq => hfree q hq (heq ▸ hc)
    simp [IdeMem.setBuf, hcb]
  refine ⟨h.havedisk1, h.queue, h.drive, ?_, ?_⟩
  · refine h.users.change ?_ ⟨?_, trivial⟩ hother ?_
    · intro q hq c hc hcq
      rcases hmine c hc with rfl | hcp
      · exact hfree q hq hcq
      · exact hq (h.users.apart q p c hcq hcp)
    · intro c hc
      by_cases hcb : c = b
      · subst hcb
        simpa [IdeMem.setBuf] using hlocked hc
      · have hcp := (hmine c hc).resolve_left hcb
        simpa [IdeMem.setBuf, hcb] using (h.users.each p).1 c hcp
    · intro c r _ hrequest
      simp [hidle, IdePc.request] at hrequest
  · apply h.holder.frame
    intro c hc
    obtain ⟨request, hrequest, rfl⟩ := h.queue.popped c hc
    obtain ⟨q, hq⟩ := h.users.flight _ request le_rfl hrequest
    have hqp : q ≠ p := by
      rintro rfl
      simp [hidle, IdePc.request] at hq
    exact hother q hqp _ ((h.users.each q).of_request hq).1

/-! ### `iderw` -/

theorem step_pos
    (hk : UserOk disk mem.arrived mem.completed.length mem.buf
      ⟨pos', (user p).mine⟩)
    (hrequest : ∀ b r, mem.completed.length ≤ r →
      (user p).pos.request = some (b, r) → pos'.request = some (b, r))
    (hstage : pos'.stage mem.idequeue = pos.stage mem.idequeue)
    (hholder : HolderOk disk mem.arrived mem.completed.length mem.buf mem.qnext
      mem.idequeue pos') :
    IdeOk disk mem (update user p ⟨pos', (user p).mine⟩) signals
      pos' :=
  (h.move hk hrequest).repos hstage hholder

end

theorem setNext (h : IdeOk disk mem user signals (.setNext b)) (hpos : (user p).pos = .setNext b) :
    IdeOk disk { mem with qnext := update mem.qnext b none }
      (update user p ⟨.find b none, (user p).mine⟩) signals
      (.find b none) := by
  obtain ⟨hlocked, hmine⟩ := h.users.each p
  simp only [hpos] at hmine
  refine ⟨h.havedisk1, ?_, h.drive, ?_, ?_⟩
  · apply h.queue.setNext
    exact h.users.notMem_queue (by simp [hpos, IdePc.request]) hmine.1
  · refine h.users.move ⟨hlocked, hmine⟩ ?_
    simp [hpos, IdePc.request]
  · exact ⟨update_self _ _ _, [], _, rfl, rfl⟩

section

variable (h : IdeOk disk mem user signals (.find b pp))

include h

theorem find_cell :
    mem.qnext b = none ∧ ∃ passed rest,
      (mem.arrived.drop mem.completed.length).map (·.buf) = passed ++ rest ∧
      pp = passed.getLast? ∧ mem.deref pp = rest.head? := by
  obtain ⟨hnone, passed, rest, hqueue, rfl⟩ := h.holder
  have hlinked := h.queue.linked
  simp only [IdePc.stage, IdeStage.taken, Nat.add_zero] at hlinked
  rw [hqueue] at hlinked
  exact ⟨hnone, passed, rest, hqueue, rfl, hlinked.cell⟩

theorem find_next (hpos : (user p).pos = .find b pp) (hnext : mem.deref pp = some d) :
    IdeOk disk mem (update user p ⟨.find b (some d), (user p).mine⟩)
      signals (.find b (some d)) := by
  obtain ⟨hlocked, hmine⟩ := h.users.each p
  simp only [hpos] at hmine
  obtain ⟨hnone, passed, rest, hqueue, rfl, hhead⟩ := h.find_cell
  rw [hnext] at hhead
  cases rest with
  | nil => simp at hhead
  | cons e rest =>
    obtain rfl : d = e := by simpa using hhead
    refine h.step_pos ⟨hlocked, hmine⟩ ?_ rfl ⟨hnone, passed ++ [d], rest, ?_, ?_⟩
    · simp [hpos, IdePc.request]
    · simp [hqueue]
    · simp

theorem find_end (hpos : (user p).pos = .find b pp) (hnext : mem.deref pp = none) :
    IdeOk disk mem (update user p ⟨.link b pp, (user p).mine⟩)
      signals (.link b pp) := by
  obtain ⟨hlocked, hmine⟩ := h.users.each p
  simp only [hpos] at hmine
  obtain ⟨hnone, passed, rest, hqueue, rfl, hhead⟩ := h.find_cell
  rw [hnext] at hhead
  cases rest with
  | nil =>
    refine h.step_pos ⟨hlocked, hmine⟩ ?_ rfl ⟨hnone, ?_⟩
    · simp [hpos, IdePc.request]
    · simp [hqueue]
  | cons e rest => simp at hhead

end

theorem link (h : IdeOk disk mem user signals (.link b pp)) (hpos : (user p).pos = .link b pp) :
    IdeOk disk
      { mem.assign pp b with arrived := mem.arrived ++ [⟨b, mem.buf b⟩] }
      (update user p
        ⟨.startTest b mem.arrived.length, (user p).mine⟩) signals
      (.startTest b mem.arrived.length) := by
  obtain ⟨_, hmine⟩ := h.users.each p
  simp only [hpos] at hmine
  have hfresh := h.users.notMem_queue (by simp [hpos, IdePc.request]) hmine.1
  have hle := h.queue.done_le
  have harrive := h.users.arrive hpos hle
  obtain ⟨hnone, rfl⟩ := h.holder
  cases hlast : ((mem.arrived.drop mem.completed.length).map
      (·.buf)).getLast? with
  | none =>
    have hempty : mem.arrived.length = mem.completed.length := by
      simp only [getLast?_eq_none_iff, map_eq_nil_iff, drop_eq_nil_iff] at hlast
      omega
    have hdrive := h.drive.arrive [⟨b, mem.buf b⟩]
    rw [if_pos hempty] at hdrive
    have hstage : (IdePc.startTest b mem.arrived.length).stage (some b) = .unstarted := if_pos rfl
    refine ⟨h.havedisk1, ?_, ?_, ?_, trivial⟩
    · simp only [IdeMem.assign, hstage]
      exact h.queue.arrive_first hnone hempty
    · simp only [IdeMem.assign, hstage]
      exact hdrive
    · simp only [IdeMem.assign, hstage]
      exact harrive
  | some last =>
    have hlt : mem.arrived.length ≠ mem.completed.length := by
      intro hempty
      rw [drop_eq_nil_of_le hempty.le] at hlast
      simp at hlast
    have hdrive := h.drive.arrive [⟨b, mem.buf b⟩]
    rw [if_neg hlt] at hdrive
    have hhead : mem.idequeue ≠ some b := by
      intro hhead
      have hlinked := h.queue.linked.head_eq
      rw [hhead] at hlinked
      exact hfresh (mem_of_head? hlinked.symm)
    have hstage : (IdePc.startTest b mem.arrived.length).stage mem.idequeue =
        .steady := if_neg hhead
    refine ⟨h.havedisk1, ?_, ?_, ?_, trivial⟩
    · simp only [IdeMem.assign, hstage]
      exact h.queue.arrive_behind h.users.nodup hfresh hnone hlast
    · simp only [IdeMem.assign, hstage]
      exact hdrive
    · simp only [IdeMem.assign, hstage]
      exact harrive

theorem started (pos' : IdePc B) (h : IdeOk disk mem user signals pos)
    (hstage : pos.stage mem.idequeue = .unstarted)
    (hhead : mem.idequeue = some b) (hmem : idestart mem b = .ok mem')
    (hstage' : pos'.stage mem.idequeue = .steady)
    (hholder : ∀ buf qnext idequeue, HolderOk disk mem.arrived
      mem.completed.length buf qnext idequeue pos') :
    IdeOk disk mem' user signals pos' ∧ mem'.buf = mem.buf ∧
      mem'.arrived = mem.arrived ∧ mem'.completed = mem.completed := by
  obtain ⟨hdisk, hqueue, hdrive, husers, _⟩ := h
  rw [hstage] at hqueue hdrive husers
  have hfirst := hqueue.head rfl
  rw [hhead, eq_comm, map_eq_some_iff] at hfirst
  obtain ⟨request, hrequest, rfl⟩ := hfirst
  simp only [idestart, bind_eq_ok, ensure_eq_ok, await_eq_ok, pure_eq_ok] at hmem
  obtain ⟨_, _, _, _, rfl⟩ := hmem
  rw [husers.fresh _ request le_rfl hrequest]
  refine ⟨⟨hdisk, ?_, ?_, ?_, hholder _ _ _⟩, rfl, rfl, rfl⟩
  · simp only [hstage']
    exact hqueue.start hrequest
  · simp only [hstage']
    exact hdrive.start hrequest
  · simp only [hstage']
    exact husers

theorem start (h : IdeOk disk mem user signals (.start b r))
    (hpos : (user p).pos = .start b r) (hmem : idestart mem b = .ok mem') :
    IdeOk disk mem' (update user p ⟨.wait b r, (user p).mine⟩)
      signals (.wait b r) := by
  obtain ⟨hlocked, hmine⟩ := h.users.each p
  simp only [hpos] at hmine
  obtain ⟨hwait, hbuf, harrived, hcompleted⟩ :=
    h.started (.wait b r) rfl h.holder hmem rfl (fun _ _ _ => trivial)
  apply hwait.move
  · rw [hbuf, harrived, hcompleted]
    exact ⟨hlocked, hmine⟩
  · simp [hpos, IdePc.request]

theorem wait_end (h : IdeOk disk mem user signals (.wait b r)) (hpos : (user p).pos = .wait b r)
    (hdone : (mem.buf b).valid = true ∧ (mem.buf b).dirty = false) :
    IdeOk disk mem (update user p ⟨.unlock b r, (user p).mine⟩)
      signals (.unlock b r) := by
  obtain ⟨hlocked, hmine⟩ := h.users.each p
  simp only [hpos] at hmine
  have hlt : r < mem.completed.length := by
    by_contra hge
    obtain ⟨_, request, hrequest, rfl, _⟩ := hmine
    have hbefore := h.users.fresh r request (Nat.le_of_not_lt hge) hrequest
    rw [hbefore] at hdone
    exact (h.users.accept request (mem_of_getElem? hrequest)).work hdone
  refine h.step_pos ⟨hlocked, hmine.1, hmine.2, hlt⟩ ?_ rfl trivial
  simp [hpos, IdePc.request]

theorem unlock (h : IdeOk disk mem user signals (.unlock b r)) (hpos : (user p).pos = .unlock b r) :
    IdeOk disk mem (update user p ⟨.idle, (user p).mine⟩) signals
      .idle := by
  obtain ⟨hlocked, hmine⟩ := h.users.each p
  simp only [hpos] at hmine
  refine h.step_pos ⟨hlocked, trivial⟩ ?_ rfl trivial
  intro c r' hle hrequest
  simp only [hpos, IdePc.request, some.injEq, Prod.mk.injEq] at hrequest
  omega

/-! ### `ideintr` -/

theorem pop (h : IdeOk disk mem user signals .intrPop) (hc : signals c)
    (hsignals : ∀ d, signals' d ↔ signals d ∧ d ≠ c) :
    ∃ b, mem.idequeue = some b ∧
      IdeOk disk { mem with idequeue := mem.qnext b } user signals'
        (.intrRead b) := by
  obtain ⟨request, hrequest, hdrive⟩ := h.drive.pop hc hsignals
  have hhead := h.queue.head rfl
  rw [hrequest, map_some] at hhead
  refine ⟨request.buf, hhead, h.havedisk1, h.queue.pop hrequest, hdrive, h.users.take, ?_⟩
  intro request' hrequest'
  rw [hrequest, some.injEq] at hrequest'
  subst hrequest'
  exact h.users.fresh _ request le_rfl hrequest

theorem serve_buf {f : Buf → Buf} (h : IdeOk disk mem user signals pos)
    (hstage : pos.stage mem.idequeue = .popped b)
    (hstage' : pos'.stage mem.idequeue = .popped b)
    (hlocked : (f (mem.buf b)).locked = (mem.buf b).locked)
    (hholder : HolderOk disk mem.arrived mem.completed.length
      (mem.setBuf b f).buf mem.qnext mem.idequeue pos') :
    IdeOk disk (mem.setBuf b f) user signals pos' := by
  obtain ⟨hdisk, hqueue, hdrive, husers, _⟩ := h
  rw [hstage] at hqueue hdrive husers
  obtain ⟨request, hrequest, rfl⟩ := hqueue.popped b rfl
  obtain ⟨p, hp⟩ := husers.flight _ request le_rfl hrequest
  have hmine := ((husers.each p).of_request hp).1
  rw [(husers.each p).1 _ hmine] at hlocked
  refine ⟨hdisk, ?_, ?_, ?_, hholder⟩
  · simp only [IdeMem.setBuf, hstage']
    exact hqueue
  · simp only [IdeMem.setBuf, hstage']
    exact hdrive
  · simp only [IdeMem.setBuf, hstage']
    exact husers.serving hrequest hlocked

theorem read_skip (h : IdeOk disk mem user signals (.intrRead b))
    (hdirty : (mem.buf b).dirty = true) : IdeOk disk mem user signals (.intrValid b) := by
  refine h.repos rfl ?_
  intro request hrequest
  have hbuf := h.holder request hrequest
  rw [hbuf] at hdirty ⊢
  have hdata : (resultAt disk mem.arrived mem.completed.length request).data =
      request.before.data := by simp [resultAt, serve, hdirty]
  rw [hdata]

theorem read_data {data : Block} (h : IdeOk disk mem user signals (.intrRead b))
    (hdirty : (mem.buf b).dirty = false) (hlatch : mem.drive.latch = some data) :
    IdeOk disk (mem.setBuf b fun v => { v with data := data }) user signals
      (.intrValid b) := by
  apply h.serve_buf rfl rfl rfl
  intro request hrequest
  have hbuf := h.holder request hrequest
  obtain ⟨request', hrequest', _, hread⟩ := h.drive.performed_of_popped
  rw [hrequest, some.injEq] at hrequest'
  subst hrequest'
  rw [hbuf] at hdirty
  rw [hread hdirty, some.injEq] at hlatch
  simp [IdeMem.setBuf, hbuf, resultAt, serve, hdirty, ← hlatch]

theorem set_valid (h : IdeOk disk mem user signals (.intrValid b)) :
    IdeOk disk (mem.setBuf b fun v => { v with valid := true }) user signals
      (.intrClean b) := by
  apply h.serve_buf rfl rfl rfl
  intro request hrequest
  have hbuf := h.holder request hrequest
  simp [IdeMem.setBuf, hbuf]

theorem set_clean (h : IdeOk disk mem user signals (.intrClean b)) :
    IdeOk disk { mem.setBuf b fun v => { v with dirty := false } with
      completed := mem.completed ++ [b] } user signals (.intrWake b) := by
  obtain ⟨request, hrequest, rfl⟩ := h.queue.popped b rfl
  have hbuf := h.holder request hrequest
  have hresult : { mem.buf request.buf with dirty := false } =
      resultAt disk mem.arrived mem.completed.length request := by
    simp only [hbuf, resultAt]
    rw [serve_eq]
  have hlocked : ({ mem.buf request.buf with dirty := false } : Buf).locked =
      true := by
    rw [hbuf]
    exact (h.users.accept request (mem_of_getElem? hrequest)).locked
  have husers := h.users.complete hrequest hresult hlocked
  have hlength : (mem.completed ++ [request.buf]).length = mem.completed.length + 1 := by simp
  refine ⟨h.havedisk1, h.queue.complete hrequest, ?_, ?_, trivial⟩
  · simp only [IdeMem.setBuf, hlength]
    exact h.drive.complete
  · simp only [IdeMem.setBuf, hlength]
    exact husers

theorem next_none (h : IdeOk disk mem user signals .intrNext) (hhead : mem.idequeue = none) :
    IdeOk disk mem user signals .intrRelease := by
  have hempty : mem.arrived.length = mem.completed.length := by
    have hfirst := h.queue.head rfl
    rw [hhead, eq_comm, map_eq_none_iff, getElem?_eq_none_iff] at hfirst
    have hle := h.queue.done_le
    omega
  exact ⟨h.havedisk1, h.queue.settle hempty, h.drive.settle hempty, h.users, trivial⟩

theorem next_some (h : IdeOk disk mem user signals .intrNext) (hhead : mem.idequeue = some b)
    (hmem : idestart mem b = .ok mem') : IdeOk disk mem' user signals .intrRelease :=
  (h.started .intrRelease rfl hhead hmem rfl (fun _ _ _ => trivial)).1

end IdeOk

end Statements

end Xv6Kernel
