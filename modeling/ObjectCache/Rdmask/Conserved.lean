import ObjectCache.Lib.Implements
import ObjectCache.Rdmask.Retired

/-! For every key, the clients of `RdmaSkipList` have added as many nodes more than they have removed as hold it,
and every answer is a value that was inserted with its key. -/

set_option linter.unusedSectionVars false

namespace ObjectCache.Rdmask

open Lib

variable {A K V T : Type}

/-- The operation that a thread carries out. -/
def Pc.op : Pc A K V → Option (MapOp K V)
  | .findRoot op | .find op _ _ | .revive op _ | .allocate op _ | .link op _ _ _ | .delete op _ | .done op _
  | .fillRoot (.nonblock op _) | .fill (.nonblock op _) _ | .nonblock op _ _ => some op
  | _ => none

variable [DecidableEq A] [LinearOrder K] [DecidableEq V] [DecidableEq T] {c : Config A K V T}
  {s s' : State A K V T} {t u : T} {a b : A} {n : Node A K V} {ns : List (Node A K V)} {pc pc' : Pc A K V}
  {op op' : MapOp K V} {o curr : Obj A K V} {f : Fill A K V} {w : Caller A K V} {l : Level A K} {v : Version}
  {k : K} {ret : Option V}

/-! ### The operations of the threads -/

/-- A thread at `pc'` carries out the operation that it carried out at `pc`, or none. -/
def Keeps (pc pc' : Pc A K V) : Prop := pc'.op = none ∨ pc'.op = pc.op

lemma looks_keeps (h : Looks c s t pc pc') : Keeps pc pc' := by
  cases h with
  | find hf => cases stepFind_finds hf <;> exact .inr rfl
  | @fill w f v pc hf =>
    cases stepFill_fills hf with
    | fill => cases w <;> exact .inr rfl
    | again | nonblock => exact .inr rfl
    | mark | raise => exact .inl rfl
  | @fillRoot w curr v => cases w <;> exact .inr rfl
  | revived =>
    split_ifs <;> exact .inr rfl
  | unhelped hpc =>
    rcases hpc with rfl | rfl <;> exact .inr rfl
  | @helper curr next v =>
    rcases visit_cases c next with hv | hv | hv <;> rw [hv] <;> exact .inl rfl
  | @remark curr retries f height | @retry curr retries f height =>
    rcases unlinkNode_cases c curr (retries - 1) with hv | hv <;> rw [hv] <;> exact .inl rfl
  | findRoot | deleted => exact .inr rfl
  | _ => exact .inl rfl

lemma links_keeps {p old new : Ptr A} {level : ℕ} (h : Links c pc p level old new pc') : Keeps pc pc' := by
  cases h with
  | nonblock => exact .inr rfl
  | _ => exact .inl rfl

lemma values_keeps {p : Ptr A} {old new : V} (h : Values c pc p old new pc') : Keeps pc pc' := by
  cases h with
  | @claim curr =>
    rcases unlinkNode_cases c curr 10000 with hv | hv <;> rw [hv] <;> exact .inl rfl
  | _ => exact .inr rfl

lemma levels_keeps {p : Ptr A} {old new : ℕ} (h : Levels c pc p old new pc') : Keeps pc pc' := by
  cases h with
  | reserve =>
    split_ifs <;> exact .inl rfl
  | settle => exact .inl rfl

/-- What is true of every operation that is called is true of every operation that is carried out. -/
lemma ops_step {P : MapOp K V → Prop} {x : Act A K V T} (h : ∀ t op, (s.pc t).op = some op → P op)
    (hcall : ∀ t op, x = .call t op → P op) (hs : Step c s x s') : ∀ t op, (s'.pc t).op = some op → P op := by
  have hmove : ∀ t pc, s'.pc = Function.update s.pc t pc → (∀ op, pc.op = some op → P op) →
      ∀ u op, (s'.pc u).op = some op → P op := by
    intro t pc hpc hop u op hu
    rw [hpc] at hu
    by_cases hut : u = t
    · subst hut
      rw [Function.update_self] at hu
      exact hop op hu
    · rw [Function.update_of_ne hut] at hu
      exact h u op hu
  have hkeeps : ∀ t pc, s'.pc = Function.update s.pc t pc → Keeps (s.pc t) pc →
      ∀ u op, (s'.pc u).op = some op → P op := by
    intro t pc hpc hkeep
    refine hmove t pc hpc fun op hop => ?_
    rcases hkeep with hnone | hsame
    · rw [hnone] at hop
      cases hop
    · rw [hsame] at hop
      exact h t op hop
  cases hs with
  | @call t op hpc =>
    refine hmove t _ rfl fun op' hop => ?_
    cases hop
    exact hcall t op rfl
  | looks hl => exact hkeeps _ _ rfl (looks_keeps hl)
  | links hl => exact hkeeps _ _ rfl (links_keeps hl)
  | values hv => exact hkeeps _ _ rfl (values_keeps hv)
  | levels hl => exact hkeeps _ _ rfl (levels_keeps hl)
  | allocate hpc | link hpc | requeue hpc =>
    refine hkeeps _ _ rfl ?_
    rw [hpc]
    exact .inr rfl
  | retire hpc | finish hpc => exact hkeeps _ _ rfl (.inl rfl)

lemma initial_op (c : Config A K V T) (t : T) : ((initial c).pc t).op = none := by
  simp only [initial]
  split_ifs <;> rfl

/-! ### The nodes that hold a key -/

def live (c : Config A K V T) (n : Node A K V) : Bool :=
  n.value ≠ c.delete_sentinel ∧ n.value ≠ c.unlink_sentinel

/-- The node at an address holds the key. -/
def holdsKey (c : Config A K V T) (m : Memory A K V) (k : K) (a : A) : Bool :=
  match m.log a with
  | [] => false
  | n :: _ => n.key = k && live c n

/-- How many linked nodes hold the key. -/
def State.size (c : Config A K V T) (s : State A K V T) (k : K) : ℕ := s.linked.countP (holdsKey c s.memory k)

/-- What a call that has taken effect and not yet returned will count for a key. -/
def due (k : K) : Pc A K V → ℤ
  | .done (.insert k' _) none => if k' = k then 1 else 0
  | .done (.remove k') (some _) => if k' = k then -1 else 0
  | _ => 0

/-- The calls insert no sentinel. -/
def legal (c : Config A K V T) (_ : State A K V T) : Act A K V T → Bool
  | .call _ (.insert _ value) => value ≠ c.delete_sentinel && value ≠ c.unlink_sentinel
  | _ => true

/-- The key of a node that a thread has read is the key of the node now. -/
lemma Inv.key_eq (h : Inv c s) (hs : Sound s o) (ha : o.remote_origin.address = some a)
    (hl : s.memory.log a = n :: ns) : n.key = o.node.key := by
  obtain ⟨⟨b, -, hb, hreads⟩, -⟩ := hs
  rw [ha, Option.some.injEq] at hb
  subst hb
  obtain ⟨x, hx, hkey, -⟩ := hreads.same
  exact (h.heap.same a n (h.head_mem hl) x hx).1.trans hkey

lemma live_iff : live c n = true ↔ Live c n.value := decide_eq_true_iff

lemma not_live_delete : ¬ Live c c.delete_sentinel := fun h => h.1 rfl

lemma not_live_unlink : ¬ Live c c.unlink_sentinel := fun h => h.2 rfl

lemma holdsKey_head (hl : s.memory.log a = n :: ns) : holdsKey c s.memory k a = (n.key = k && live c n) := by
  rw [holdsKey, hl]

lemma holdsKey_store_self {n' : Node A K V} :
    holdsKey c (s.memory.store a n') k a = (n'.key = k && live c n') := by
  rw [holdsKey, store_self]

lemma holdsKey_store_other {n' : Node A K V} (hb : b ≠ a) :
    holdsKey c (s.memory.store a n') k b = holdsKey c s.memory k b := by
  rw [holdsKey, holdsKey, store_other hb]

/-- A word of a linked node has changed. -/
lemma size_store {n' : Node A K V} (hn : s.linked.Nodup) (ha : a ∈ s.linked) (hl : s.memory.log a = n :: ns)
    (hkey : n'.key = n.key) : ((s.put t (s.memory.store a n') pc).size c k : ℤ) =
      s.size c k + (if n.key = k then (if live c n' then 1 else 0) else 0) -
        (if n.key = k then (if live c n then 1 else 0) else 0) := by
  have hcount := countP_of_ne (p := holdsKey c (s.memory.store a n') k) (q := holdsKey c s.memory k) hn ha
    fun b hb => holdsKey_store_other hb
  rw [holdsKey_store_self, holdsKey_head hl, hkey] at hcount
  simp only [State.size, State.put]
  by_cases hk : n.key = k
  · simp only [hk, decide_true, Bool.true_and] at hcount
    simp only [if_pos hk]
    split_ifs at hcount ⊢ <;> omega
  · simp only [hk, decide_false, Bool.false_and, Bool.false_eq_true, if_false] at hcount
    simp only [if_neg hk]
    omega

lemma size_eq_of (hm : ∀ b ∈ s.linked, holdsKey c s'.memory k b = holdsKey c s.memory k b)
    (hlinked : s'.linked = s.linked) : s'.size c k = s.size c k := by
  rw [State.size, State.size, hlinked]
  exact List.countP_congr fun b hb => by rw [hm b hb]

/-! ### The balance -/

section Balance

variable [Fintype T]

/-- What the clients have counted for a key and are still to count. -/
def State.balance (s : State A K V T) (k : K) : ℤ := ∑ t, (s.delta t k + due k (s.pc t))

structure Conserved (c : Config A K V T) (s : State A K V T) : Prop where
  inserts : ∀ t op, (s.pc t).op = some op → ∀ k value, op = .insert k value → Live c value
  size : ∀ k, k ≠ c.min_key → (s.size c k : ℤ) = s.balance k

lemma balance_update {delta : K → ℤ} (hpc : s'.pc = Function.update s.pc t pc)
    (hdelta : s'.delta = Function.update s.delta t delta) (k : K) :
    s'.balance k = s.balance k - (s.delta t k + due k (s.pc t)) + (delta k + due k pc) := by
  have hsum := sum_update (fun x : (K → ℤ) × Pc A K V => x.1 k + due k x.2) (fun u => (s.delta u, s.pc u)) t
    (delta, pc)
  have hnew : s'.balance k = ∑ u, ((Function.update (fun u => (s.delta u, s.pc u)) t (delta, pc) u).1 k +
      due k (Function.update (fun u => (s.delta u, s.pc u)) t (delta, pc) u).2) := by
    rw [State.balance, hpc, hdelta]
    refine Finset.sum_congr rfl fun u _ => ?_
    by_cases hu : u = t
    · subst hu
      simp only [Function.update_self]
    · simp only [Function.update_of_ne hu]
  rw [hnew, hsum, State.balance]

lemma balance_move (hpc : s'.pc = Function.update s.pc t pc) (hdelta : s'.delta = s.delta) (k : K) :
    s'.balance k = s.balance k - due k (s.pc t) + due k pc := by
  have hself : s'.delta = Function.update s.delta t (s.delta t) := by
    rw [hdelta, Function.update_eq_self]
  rw [balance_update hpc hself k]
  omega

lemma finds_due (h : Finds op pc) : due k pc = 0 := by
  cases h <;> rfl

lemma fills_due (h : Fills w pc) : due k pc = 0 := by
  cases h <;> rfl

lemma looks_due (hok : Ok c s pc) (h : Looks c s t pc pc') : due k pc = 0 ∧ due k pc' = 0 := by
  cases h with
  | find hf => exact ⟨rfl, finds_due (stepFind_finds hf)⟩
  | fill hf => exact ⟨rfl, fills_due (stepFill_fills hf)⟩
  | revived =>
    refine ⟨rfl, ?_⟩
    split_ifs <;> rfl
  | @deleted op curr =>
    obtain ⟨-, -, rfl⟩ := hok
    exact ⟨rfl, rfl⟩
  | unhelped hpc =>
    rcases hpc with rfl | rfl <;> exact ⟨rfl, rfl⟩
  | @helper curr next v =>
    rcases visit_cases c next with hv | hv | hv <;> rw [hv] <;> exact ⟨rfl, rfl⟩
  | @remark curr retries f height | @retry curr retries f height =>
    rcases unlinkNode_cases c curr (retries - 1) with hv | hv <;> rw [hv] <;> exact ⟨rfl, rfl⟩
  | _ => exact ⟨rfl, rfl⟩

/-- What a call counts when it returns was due before. -/
lemma counted_eq (delta : K → ℤ) (op : MapOp K V) (ret : Option V) :
    counted delta op ret k = delta k + due k (.done op ret : Pc A K V) := by
  cases op with
  | contains k' => exact (Int.add_zero _).symm
  | insert k' value =>
    cases ret with
    | some old => exact (Int.add_zero _).symm
    | none =>
      by_cases hk : k' = k
      · subst hk
        simp only [counted, due, Function.update_self, if_true]
      · simp only [counted, due, if_neg hk, Function.update_of_ne (Ne.symm hk), Int.add_zero]
  | remove k' =>
    cases ret with
    | none => exact (Int.add_zero _).symm
    | some old =>
      by_cases hk : k' = k
      · subst hk
        simp only [counted, due, Function.update_self, if_true]
        omega
      · simp only [counted, due, if_neg hk, Function.update_of_ne (Ne.symm hk), Int.add_zero]

lemma links_due {p old new : Ptr A} {level : ℕ} (h : Links c pc p level old new pc') :
    due k pc = 0 ∧ due k pc' = 0 := by
  cases h <;> exact ⟨rfl, rfl⟩

lemma levels_due {p : Ptr A} {old new : ℕ} (h : Levels c pc p old new pc') : due k pc = 0 ∧ due k pc' = 0 := by
  cases h with
  | reserve =>
    refine ⟨rfl, ?_⟩
    split_ifs <;> rfl
  | settle => exact ⟨rfl, rfl⟩

lemma live_false {v : V} (h : n.value = v) (hv : ¬ Live c v) : live c n = false := by
  rw [← h] at hv
  exact decide_eq_false hv

variable (hi : Inv c s) (hc : Conserved c s)

include hi hc

/-- The three swaps of a value: an insertion revives a node, a removal kills one, and a claim does neither. -/
lemma Conserved.values {p : Ptr A} {old new : V} (hv : Values c (s.pc t) p old new pc) (ha : p.address = some a)
    (hl : s.memory.log a = n :: ns) (hold : n.value = old) :
    ((s.put t (s.memory.store a { n with value := new }) pc).size c k : ℤ) =
      s.size c k - due k (s.pc t) + due k pc := by
  obtain ⟨hp, -, -⟩ := values_ok (hi.pc t) hv
  have hok := hi.pc t
  have hins := hc.inserts t
  have hkept : ({ n with value := new } : Node A K V).key = n.key := rfl
  rw [size_store hi.heap.linked_nodup (hp a ha) hl hkept]
  generalize s.pc t = pc₀ at hv hok hins
  cases hv with
  | @revive k' _ curr =>
    obtain ⟨hcurr, k₁, value₁, hop, hkey⟩ := hok
    cases hop
    have hlive : Live c new := hins _ rfl k' new rfl
    have hkey' : n.key = k' := (hi.key_eq hcurr ha hl).trans hkey
    rw [if_pos (live_iff.mpr hlive), live_false hold not_live_delete, hkey']
    simp only [due, Bool.false_eq_true, if_false, ite_self]
    omega
  | @delete op curr =>
    obtain ⟨hcurr, hlive, rfl⟩ := hok
    have hlive' : live c n = true := by
      apply live_iff.mpr
      rw [hold]
      exact hlive
    have hdead : live c { n with value := c.delete_sentinel } = false := live_false rfl not_live_delete
    rw [if_pos hlive', hdead, hi.key_eq hcurr ha hl]
    simp only [due, Bool.false_eq_true, if_false, ite_self]
    split_ifs <;> omega
  | @claim curr =>
    have hdead : live c { n with value := c.unlink_sentinel } = false := live_false rfl not_live_unlink
    have hdue : due k (unlinkNode c curr 10000) = 0 := by
      rcases unlinkNode_cases c curr 10000 with hu | hu <;> rw [hu] <;> rfl
    rw [live_false hold not_live_delete, hdead, hdue]
    simp only [due, Bool.false_eq_true, if_false, ite_self]
    omega

/-- The new node counts from the moment it is linked. -/
lemma Conserved.link {curr : Obj A K V} {new_node : A} {height : ℕ} {cached : Bool}
    (hpc : s.pc t = .link op curr new_node height) (ha : curr.remote_origin.address = some a)
    (hl : s.memory.log a = n :: ns) :
    (({ s with linked := new_node :: s.linked }.put t
      (s.memory.store a (n.setNext 0 ⟨some new_node, cached, false⟩)) (.done op none)).size c k : ℤ) =
      s.size c k + due k (.done op none : Pc A K V) := by
  have hok := hi.pc t
  rw [hpc] at hok
  obtain ⟨hcurr, hpriv⟩ := hok
  obtain ⟨k', value, height', next, rfl, hlog⟩ := hpriv.node
  have hmem : a ∈ s.linked := hcurr.known a ha
  have hne : new_node ≠ a := by
    rintro rfl
    exact hpriv.unlinked hmem
  have hlive : Live c value := hc.inserts t _ (by rw [hpc]; rfl) k' value rfl
  have hstay : ((s.put t (s.memory.store a (n.setNext 0 ⟨some new_node, cached, false⟩))
      (.done (.insert k' value) none)).size c k : ℤ) = _ := size_store hi.heap.linked_nodup hmem hl rfl
  have hsame : live c (n.setNext 0 ⟨some new_node, cached, false⟩) = live c n := rfl
  rw [hsame] at hstay
  have hnew : holdsKey c (s.memory.store a (n.setNext 0 ⟨some new_node, cached, false⟩)) k new_node = true ↔
      k' = k := by
    have hnode : live c (Config.newNode k' value height' next) = true := live_iff.mpr hlive
    rw [holdsKey_store_other hne, holdsKey_head hlog, hnode, Bool.and_true]
    exact decide_eq_true_iff
  simp only [State.size, State.put, List.countP_cons, hnew, due] at hstay ⊢
  push_cast
  split_ifs at hstay ⊢ <;> omega

/-- A step that changes the count of the nodes by what it changes in what is due. -/
lemma Conserved.move (hinserts : ∀ t op, (s'.pc t).op = some op → ∀ k value, op = .insert k value → Live c value)
    (hpc : s'.pc = Function.update s.pc t pc) (hdelta : s'.delta = s.delta)
    (hsize : ∀ k, (s'.size c k : ℤ) = s.size c k - due k (s.pc t) + due k pc) : Conserved c s' where
  inserts := hinserts
  size k hk := by
    have hold := hc.size k hk
    rw [hsize, balance_move hpc hdelta]
    omega

lemma Conserved.step {x : Act A K V T} (hs : Step c s x s') (hx : legal c s x = true) : Conserved c s' := by
  have hinserts : ∀ t op, (s'.pc t).op = some op → ∀ k value, op = .insert k value → Live c value := by
    apply ops_step hc.inserts _ hs
    rintro t op rfl k value rfl
    simp only [legal, Bool.and_eq_true, decide_eq_true_eq] at hx
    exact hx
  have hstay : ∀ (t : T) (pc : Pc A K V), s'.pc = Function.update s.pc t pc →
      s'.delta = s.delta → (∀ k, due k (s.pc t) = 0 ∧ due k pc = 0) →
      (∀ k, s'.size c k = s.size c k) → Conserved c s' := by
    intro t pc hpc hdelta hdue hsize
    refine hc.move hi hinserts hpc hdelta fun k => ?_
    rw [hsize, (hdue k).1, (hdue k).2]
    omega
  cases hs with
  | @call t op hpc =>
    refine hstay t _ rfl rfl (fun k => ⟨?_, rfl⟩) fun k => rfl
    rw [hpc]
    rfl
  | looks hl => exact hstay _ _ rfl rfl (fun k => looks_due (hi.pc _) hl) fun k => rfl
  | @links t v p a n ns level old new pc hl ha hn hold =>
    obtain ⟨hp, -⟩ := links_ok (hi.pc t) hl
    refine hc.move hi hinserts rfl rfl fun k => ?_
    have hkept : (n.setNext level new).key = n.key := rfl
    have hsame : live c (n.setNext level new) = live c n := rfl
    rw [size_store hi.heap.linked_nodup (hp a ha) hn hkept, hsame, (links_due hl).1, (links_due hl).2]
    omega
  | @values t v p a n ns old new pc hv ha hn hold =>
    exact hc.move hi hinserts rfl rfl fun k => hc.values hi hv ha hn hold
  | @levels t v p a n ns old new pc hl ha hn hold =>
    obtain ⟨hp, -⟩ := levels_ok (hi.pc t) hl
    refine hc.move hi hinserts rfl rfl fun k => ?_
    have hkept : ({ n with link_level := new } : Node A K V).key = n.key := rfl
    have hsame : live c { n with link_level := new } = live c n := rfl
    rw [size_store hi.heap.linked_nodup (hp a ha) hn hkept, hsame, (levels_due hl).1, (levels_due hl).2]
    omega
  | @allocate t a height k value curr hpc hnew hpos hmax =>
    refine hstay t _ rfl rfl (fun k => ⟨?_, rfl⟩) fun k => size_eq_of (fun b hb => ?_) rfl
    · rw [hpc]
      rfl
    · apply holdsKey_store_other
      rintro rfl
      exact hnew (hi.heap.linked hb)
  | @link t v op curr new_node height a n ns hpc ha hn hold =>
    refine hc.move hi hinserts rfl rfl fun k => ?_
    rw [hc.link hi hpc ha hn, hpc]
    simp only [due, Int.sub_zero]
  | @requeue t v op curr new_node height hpc =>
    refine hstay t _ rfl rfl (fun k => ⟨?_, rfl⟩) fun k => rfl
    rw [hpc]
    rfl
  | @retire t v curr a next hpc ha hr =>
    refine hstay t _ rfl rfl (fun k => ⟨?_, rfl⟩) fun k => rfl
    rw [hpc]
    rfl
  | @finish t op ret hpc =>
    refine ⟨hinserts, fun k hk => ?_⟩
    generalize hs' : ({ s with delta := Function.update s.delta t (counted (s.delta t) op ret) }.setPc t .idle) = s'
    have hpc' : s'.pc = Function.update s.pc t .idle := by
      subst hs'
      rfl
    have hdelta : s'.delta = Function.update s.delta t (counted (s.delta t) op ret) := by
      subst hs'
      rfl
    have hsize : s'.size c k = s.size c k := by
      subst hs'
      rfl
    have hidle : due k (.idle : Pc A K V) = 0 := rfl
    rw [hsize, hc.size k hk, balance_update hpc' hdelta, counted_eq (A := A), hpc, hidle]
    omega

omit hi hc in
lemma Conserved.initial : Conserved c (initial c) where
  inserts t op hop := by
    rw [initial_op] at hop
    cases hop
  size k hk := by
    have hdue : ∀ t, due k ((Rdmask.initial c).pc t) = 0 := by
      intro t
      simp only [Rdmask.initial]
      split_ifs <;> rfl
    have hempty : (Rdmask.initial c).size c k = 0 := by
      have hroot : holdsKey c (Rdmask.initial c).memory k c.root = false := by
        have hl : (Rdmask.initial c).memory.log c.root = [c.root_node] := by
          simp only [Rdmask.initial, Function.update_self]
        rw [holdsKey_head hl, decide_eq_false (fun h : c.root_node.key = k => hk h.symm), Bool.false_and]
      have hlinked : (Rdmask.initial c).linked = [c.root] := rfl
      rw [State.size, hlinked, List.countP_singleton, if_neg]
      rw [hroot]
      exact Bool.false_ne_true
    have hzero : (Rdmask.initial c).balance k = 0 := by
      apply Finset.sum_eq_zero
      intro t _
      rw [hdue]
      rfl
    rw [hempty, hzero]
    rfl

end Balance

/-- In every run in which no sentinel is inserted, a key other than `KEY_MIN` is held by as many linked nodes as
the clients have counted for it, with the calls that have taken effect and not yet returned. -/
theorem size_eq [Fintype T] (h : ((machine c).only (legal c)).Reachable s) (hk : k ≠ c.min_key) :
    (s.size c k : ℤ) = ∑ t, (s.delta t k + due k (s.pc t)) := by
  have hboth : Inv c s ∧ Conserved c s := by
    apply h.invariant
    · rintro s rfl
      exact ⟨.initial, .initial⟩
    · intro s x s' hinv hs
      obtain ⟨hx, hs⟩ := Option.ite_none_right_eq_some.mp hs
      exact ⟨hinv.1.step (step_cases hs), hinv.2.step hinv.1 (step_cases hs) hx⟩
  exact hboth.2.size k hk

lemma pair_legal : ∀ i < 42, legal pair (pairRun.state i) (pairRun.act i) = true := by
  decide +kernel

theorem size_eq_pair : ((pairRun.state 6).size pair 5 : ℤ) =
    ∑ t, ((pairRun.state 6).delta t 5 + due 5 ((pairRun.state 6).pc t)) ∧ (pairRun.state 6).size pair 5 = 1 :=
  ⟨size_eq ((pairRun.only 42 (by decide) pair_legal).reachable 6 (by decide)) (by decide), by decide +kernel⟩

/-! ### The answers -/

section Backed

variable {P Q : K → V → Prop} {value : V}

/-- The live values that the nodes have held, and the answers, are in the relation with their keys. -/
structure Backed (c : Config A K V T) (P : K → V → Prop) (s : State A K V T) : Prop where
  log : ∀ a, ∀ x ∈ s.memory.log a, x.key ≠ c.min_key → Live c x.value → P x.key x.value
  inserts : ∀ t op, (s.pc t).op = some op → ∀ k value, op = .insert k value → P k value
  answer : ∀ t op value, s.pc t = .done op (some value) → op.key ≠ c.min_key → P op.key value

lemma Backed.mono (h : Backed c P s) (hPQ : ∀ k value, P k value → Q k value) : Backed c Q s where
  log a x hx hk hlive := hPQ _ _ (h.log a x hx hk hlive)
  inserts t op hop k value hins := hPQ _ _ (h.inserts t op hop k value hins)
  answer t op value hpc hk := hPQ _ _ (h.answer t op value hpc hk)

lemma found_answer (h : found c op curr = .done op' (some value)) :
    op' = op ∧ op.key = curr.node.key ∧ value = curr.node.value ∧ Live c value := by
  cases op with
  | contains k =>
    simp only [found, Pc.done.injEq, Option.ite_none_right_eq_some, Option.some.injEq] at h
    obtain ⟨rfl, ⟨hk, hlive⟩, rfl⟩ := h
    exact ⟨rfl, hk, rfl, hlive⟩
  | insert k v =>
    simp only [found] at h
    split_ifs at h with hk hu hd
    cases h
    exact ⟨rfl, hk.symm, rfl, hd, hu⟩
  | remove k =>
    simp only [found] at h
    split_ifs at h <;> cases h

lemma stepFind_answer {height : ℕ} (h : stepFind c s op curr height v = some (.done op' (some value))) :
    found c op curr = .done op' (some value) := by
  have hdescend : ∀ height, descend c op curr height = .done op' (some value) →
      found c op curr = .done op' (some value) := by
    intro height hd
    cases height with
    | zero => exact hd
    | succ height => cases hd
  rw [stepFind] at h
  split_ifs at h
  · exact Option.some.inj h
  · exact hdescend height (Option.some.inj h)
  · obtain ⟨next_curr, -, h⟩ := Option.map_eq_some_iff.mp h
    split_ifs at h
    exact hdescend height h

variable (hi : Inv c s) (hb : Backed c P s)

include hi hb

lemma Backed.sound (ho : Sound s o) (hk : o.node.key ≠ c.min_key) (hlive : Live c o.node.value) :
    P o.node.key o.node.value := by
  obtain ⟨⟨a, -, -, hreads⟩, -⟩ := ho
  obtain ⟨x, hx, hvalue⟩ := hreads.value
  obtain ⟨y, hy, hkey, -⟩ := hreads.same
  have hxkey : x.key = o.node.key := (hi.heap.same a x hx y hy).1.trans hkey
  rw [← hxkey] at hk
  rw [← hvalue] at hlive
  rw [← hxkey, ← hvalue]
  exact hb.log a x hx hk hlive

lemma Backed.looks (hok : Ok c s pc) (h : Looks c s t pc pc') (hpc : pc' = .done op (some value))
    (hk : op.key ≠ c.min_key) : P op.key value := by
  cases h with
  | @find op₀ curr height v pc hf =>
    rw [hpc] at hf
    obtain ⟨rfl, hkey, rfl, hlive⟩ := found_answer (stepFind_answer hf)
    rw [hkey] at hk ⊢
    exact hb.sound hi hok hk hlive
  | @revived k v curr a n ns ha hl hne =>
    obtain ⟨hcurr, k₁, v₁, hop, hkey⟩ := hok
    split_ifs at hpc with hu
    cases hop
    cases hpc
    have hnode : n.key = k := (hi.key_eq hcurr ha hl).trans hkey
    have hk' : n.key ≠ c.min_key := by
      rw [hnode]
      exact hk
    have hheld := hb.log a n (hi.head_mem hl) hk' ⟨hne, hu⟩
    rw [hnode] at hheld
    exact hheld
  | @fill w f v pc hf =>
    rw [hpc] at hf
    cases stepFill_fills hf
  | unhelped h =>
    rw [hpc] at h
    rcases h with h | h <;> cases h
  | @helper curr next v =>
    rcases visit_cases c next with hv | hv | hv <;> rw [hv] at hpc <;> cases hpc
  | @remark curr retries f height | @retry curr retries f height =>
    rcases unlinkNode_cases c curr (retries - 1) with hv | hv <;> rw [hv] at hpc <;> cases hpc
  | _ => cases hpc

lemma Backed.values {p : Ptr A} {old new : V} (hv : Values c (s.pc t) p old new pc) (ha : p.address = some a)
    (hl : s.memory.log a = n :: ns) : (n.key ≠ c.min_key → Live c new → P n.key new) ∧
      ∀ op value, pc = .done op (some value) → op.key ≠ c.min_key → P op.key value := by
  have hok := hi.pc t
  have hins := hb.inserts t
  generalize s.pc t = pc₀ at hv hok hins
  cases hv with
  | @revive k _ curr =>
    obtain ⟨hcurr, k₁, v₁, hop, hkey⟩ := hok
    cases hop
    have hnode : n.key = k := (hi.key_eq hcurr ha hl).trans hkey
    rw [hnode]
    exact ⟨fun _ _ => hins _ rfl k new rfl, fun op value h => by cases h⟩
  | @delete op curr =>
    obtain ⟨hcurr, hlive, rfl⟩ := hok
    refine ⟨fun _ hl => absurd hl not_live_delete, fun op value h hk => ?_⟩
    cases h
    exact hb.sound hi hcurr hk hlive
  | @claim curr =>
    refine ⟨fun _ hl => absurd hl not_live_unlink, fun op value h => ?_⟩
    rcases unlinkNode_cases c curr 10000 with hu | hu <;> rw [hu] at h <;> cases h

/-- One thread goes on, and at most one node gets new content. -/
lemma Backed.move (hinserts : ∀ t op, (s'.pc t).op = some op → ∀ k value, op = .insert k value → P k value)
    (hpc : s'.pc = Function.update s.pc t pc)
    (hlog : ∀ a, ∀ x ∈ s'.memory.log a, x ∈ s.memory.log a ∨
      (x.key ≠ c.min_key → Live c x.value → P x.key x.value))
    (hanswer : ∀ op value, pc = .done op (some value) → op.key ≠ c.min_key → P op.key value) :
    Backed c P s' where
  log a x hx hk hlive := by
    rcases hlog a x hx with hx | hx
    · exact hb.log a x hx hk hlive
    · exact hx hk hlive
  inserts := hinserts
  answer u op value hu hk := by
    rw [hpc] at hu
    by_cases hut : u = t
    · subst hut
      rw [Function.update_self] at hu
      exact hanswer op value hu hk
    · rw [Function.update_of_ne hut] at hu
      exact hb.answer u op value hu hk

omit hb in
lemma Backed.step (hb : Backed c P s) {x : Act A K V T} (hs : Step c s x s')
    (hcall : ∀ t k value, x = .call t (.insert k value) → P k value) : Backed c P s' := by
  have hinserts : ∀ t op, (s'.pc t).op = some op → ∀ k value, op = .insert k value → P k value := by
    apply ops_step hb.inserts _ hs
    rintro t op rfl k value rfl
    exact hcall t k value rfl
  have hstore : ∀ {a : A} {n' : Node A K V}, (n'.key ≠ c.min_key → Live c n'.value → P n'.key n'.value) →
      ∀ b, ∀ x ∈ (s.memory.store a n').log b, x ∈ s.memory.log b ∨
        (x.key ≠ c.min_key → Live c x.value → P x.key x.value) := by
    intro a n' hn' b x hx
    by_cases hba : b = a
    · subst hba
      rw [store_self] at hx
      rcases List.mem_cons.mp hx with rfl | hx
      · exact .inr hn'
      · exact .inl hx
    · rw [store_other hba] at hx
      exact .inl hx
  cases hs with
  | call hpc => exact hb.move hi hinserts rfl (fun _ _ hx => .inl hx) fun op value h => by cases h
  | looks hl =>
    exact hb.move hi hinserts rfl (fun _ _ hx => .inl hx) fun op value h hk => hb.looks hi (hi.pc _) hl h hk
  | @links t v p a n ns level old new pc hl ha hn hold =>
    refine hb.move hi hinserts rfl (hstore (hb.log a n (hi.head_mem hn))) fun op value h => ?_
    rw [h] at hl
    generalize s.pc t = pc₀ at hl
    cases hl
  | @values t v p a n ns old new pc hv ha hn hold =>
    obtain ⟨hlive, hanswer⟩ := hb.values hi hv ha hn
    exact hb.move hi hinserts rfl (hstore hlive) hanswer
  | @levels t v p a n ns old new pc hl ha hn hold =>
    refine hb.move hi hinserts rfl (hstore (hb.log a n (hi.head_mem hn))) fun op value h => ?_
    generalize s.pc t = pc₀ at hl
    cases hl with
    | reserve =>
      split_ifs at h <;> cases h
    | settle => cases h
  | @allocate t a height k value curr hpc hnew hpos hmax =>
    have hins : P k value := hb.inserts t (.insert k value) (by rw [hpc]; rfl) k value rfl
    exact hb.move hi hinserts rfl (hstore fun _ _ => hins) fun op value h => by cases h
  | @link t v op curr new_node height a n ns hpc ha hn hold =>
    refine hb.move hi hinserts rfl (hstore (hb.log a n (hi.head_mem hn))) fun op value h => ?_
    cases h
  | requeue hpc => exact hb.move hi hinserts rfl (fun _ _ hx => .inl hx) fun op value h => by cases h
  | retire hpc => exact hb.move hi hinserts rfl (fun _ _ hx => .inl hx) fun op value h => by cases h
  | finish hpc => exact hb.move hi hinserts rfl (fun _ _ hx => .inl hx) fun op value h => by cases h

omit hi hb in
lemma Backed.initial : Backed c P (initial c) where
  log a x hx hk := by
    have hroot : x = c.root_node := by
      by_cases ha : a = c.root
      · subst ha
        simpa only [Rdmask.initial, Function.update_self, List.mem_singleton] using hx
      · simp only [Rdmask.initial, Function.update_of_ne ha] at hx
        cases hx
    rw [hroot] at hk
    exact absurd rfl hk
  inserts t op hop := by
    rw [initial_op] at hop
    cases hop
  answer t op value hpc := by
    have hop : ((Rdmask.initial c).pc t).op = some op := by
      rw [hpc]
      rfl
    rw [initial_op] at hop
    cases hop

end Backed

/-- However old the copies that the threads read, a value that a call for a key other than `KEY_MIN` answers with
was inserted with this key before. -/
theorem answers_inserted (r : (machine c).Run) {i : ℕ} (hi : i ≤ r.len) {value : V}
    (hpc : (r.state i).pc t = .done op (some value)) (hk : op.key ≠ c.min_key) :
    ∃ j < i, ∃ u, r.act j = .call u (.insert op.key value) := by
  have hbacked : ∀ i ≤ r.len,
      Backed c (fun k value => ∃ j < i, ∃ u, r.act j = .call u (.insert k value)) (r.state i) := by
    intro i
    induction i with
    | zero =>
      intro _
      rw [r.start]
      exact .initial
    | succ i ih =>
      intro hlen
      have hinv := inv_of_reachable (r.reachable i (Nat.le_of_succ_le hlen))
      have hold := ih (Nat.le_of_succ_le hlen)
      refine Backed.step hinv (hold.mono ?_) (step_cases (r.next i hlen))
        fun u k value hx => ⟨i, Nat.lt_succ_self i, u, hx⟩
      rintro k value ⟨j, hj, u, hu⟩
      exact ⟨j, Nat.lt_succ_of_lt hj, u, hu⟩
  exact (hbacked i hi).answer t op value hpc hk

lemma pair_contains : (pairRun.state 42).pc false = .done (.contains 5) (some 7) := rfl

theorem answers_inserted_pair : ∃ j < 42, ∃ u, pairRun.act j = .call u (.insert 5 7) :=
  answers_inserted pairRun (by decide) pair_contains (by decide)

end ObjectCache.Rdmask
