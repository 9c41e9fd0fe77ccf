import WindCloud.Lib.Chain
import Mathlib.Data.List.Induction
import Mathlib.Data.Fintype.EquivFin
/-!
# The queue of accepted connections

| here | there |
| --- | --- |
| `Queue`            | `queue_t` (`queue.h:24`), with the heap cells of its `node_t`; `last` is its `end` |
| `Queue.enQueue`    | `enQueue` (`queue.c:9`) |
| `Queue.deQueue`    | `deQueue` (`queue.c:36`) |

`node` is the address `calloc` returns. `none` is a null or dangling pointer followed: it does
not happen to a queue that holds a list (`enQueue_holds`, `deQueue_holds`).
-/

namespace WindCloud

open Linked

structure Queue where
  nodes : Heap Int
  head : Option Nat
  last : Option Nat
  size : Nat

namespace Queue

/-- `memset(&pool->queue, 0, ..)`. -/
def empty : Queue := ⟨fun _ => none, none, none, 0⟩

def enQueue (q : Queue) (node : Nat) (fd : Int) : Option Queue :=
  if q.size = 0 then
    some ⟨Function.update q.nodes node (some ⟨fd, none⟩), some node, some node, q.size + 1⟩
  else do
    let e ← q.last
    let cell ← q.nodes e
    some ⟨hang q.nodes e cell.val node fd, q.head, some node, q.size + 1⟩

def deQueue (q : Queue) : Option (Int × Queue) :=
  if q.size = 0 then some (-1, q)
  else do
    let p ← q.head
    let cell ← q.nodes p
    some (cell.val, ⟨Function.update q.nodes p none, cell.next, if q.size = 1 then none else q.last, q.size - 1⟩)

/-- What the queue holds, first to last. -/
def contents (q : Queue) : List Int := walk q.nodes q.size q.head

/-- The queue is a chain of exactly the nodes allocated for it, which are `cells`, address and fd. -/
structure Links (q : Queue) (cells : List (Nat × Int)) : Prop where
  chain : Chain q.nodes q.head cells
  nodup : (cells.map Prod.fst).Nodup
  last : q.last = (cells.map Prod.fst).getLast?
  rest : ∀ a ∉ cells.map Prod.fst, q.nodes a = none
  size : q.size = cells.length

/-- The queue is a chain of exactly the nodes allocated for it, and holds `fds`. -/
structure Holds (q : Queue) (fds : List Int) : Prop where
  chain : ∃ cells, Chain q.nodes q.head cells ∧ cells.map Prod.snd = fds ∧ (cells.map Prod.fst).Nodup ∧
    q.last = (cells.map Prod.fst).getLast? ∧ ∀ a ∉ cells.map Prod.fst, q.nodes a = none
  size : q.size = fds.length

variable {q : Queue} {fds : List Int} {fd : Int} {node : Nat} {cells : List (Nat × Int)}

theorem holds_iff : q.Holds fds ↔ ∃ cells, q.Links cells ∧ cells.map Prod.snd = fds := by
  constructor
  · rintro ⟨⟨cells, hc, rfl, hnodup, hlast, hrest⟩, hsize⟩
    rw [List.length_map] at hsize
    exact ⟨cells, ⟨hc, hnodup, hlast, hrest, hsize⟩, rfl⟩
  · rintro ⟨cells, h, rfl⟩
    exact ⟨⟨cells, h.chain, rfl, h.nodup, h.last, h.rest⟩, by rw [h.size, List.length_map]⟩

theorem empty_links : empty.Links [] := ⟨rfl, by simp, rfl, fun _ _ => rfl, rfl⟩

theorem empty_holds : empty.Holds [] := holds_iff.2 ⟨[], empty_links, rfl⟩

theorem Links.mem (h : q.Links cells) (hnode : q.nodes node ≠ none) : node ∈ cells.map Prod.fst := by
  by_contra hnot
  exact hnode (h.rest node hnot)

theorem Links.fresh (h : q.Links cells) (hnode : q.nodes node = none) : node ∉ cells.map Prod.fst := by
  intro hmem
  obtain ⟨c, hc, rfl⟩ := List.mem_map.1 hmem
  obtain ⟨next, hn⟩ := chain_mem h.chain hc
  rw [hn] at hnode
  cases hnode

theorem Holds.contents (h : q.Holds fds) : q.contents = fds := by
  obtain ⟨cells, hlinks, rfl⟩ := holds_iff.1 h
  rw [Queue.contents, hlinks.size, walk_chain hlinks.chain]

/-- `enQueue` hangs its node behind the chain. -/
theorem enQueue_links (h : q.Links cells) (hnode : q.nodes node = none) (fd : Int) :
    ∃ q', q.enQueue node fd = some q' ∧ q'.Links (cells ++ [(node, fd)]) := by
  have hfresh := h.fresh hnode
  obtain ⟨hc, hnodup, hlast, hrest, hsize⟩ := h
  rcases List.eq_nil_or_concat cells with rfl | ⟨front, ⟨e, w⟩, rfl⟩
  · -- the first node is head and end
    refine ⟨_, if_pos hsize, ⟨rfl, none, by simp, rfl⟩, by simp, rfl, ?_, by simp [hsize]⟩
    intro a ha
    have hne : a ≠ node := by simpa using ha
    exact (Function.update_of_ne hne ..).trans (hrest a (by simp))
  · -- hung behind the old end
    simp only [List.concat_eq_append] at hc hnodup hlast hrest hsize hfresh ⊢
    obtain ⟨next, he⟩ := chain_mem hc (List.mem_append_right front (List.mem_singleton_self (e, w)))
    have hne : q.size ≠ 0 := by simp [hsize]
    have hq : q.enQueue node fd = some ⟨hang q.nodes e w node fd, q.head, some node, q.size + 1⟩ := by
      simp [enQueue, hne, hlast, he]
    have hcells : front ++ [(e, w)] ++ [(node, fd)] = front ++ [(e, w), (node, fd)] := by simp
    rw [hcells]
    refine ⟨_, hq, chain_snoc hc hnodup hfresh, ?_, by simp, ?_, ?_⟩
    · have hmap : (front ++ [(e, w), (node, fd)]).map Prod.fst = (front ++ [(e, w)]).map Prod.fst ++ [node] := by simp
      rw [hmap]
      refine List.nodup_append.2 ⟨hnodup, List.nodup_singleton _, ?_⟩
      rintro a ha b hb rfl
      rw [List.mem_singleton] at hb
      exact hfresh (hb ▸ ha)
    · intro a ha
      simp only [List.map_append, List.map_cons, List.map_nil, List.mem_append, List.mem_cons, List.not_mem_nil, or_false,
        not_or] at ha
      have hold : a ∉ (front ++ [(e, w)]).map Prod.fst := by
        rw [List.map_append, List.mem_append, not_or]
        exact ⟨ha.1, by simpa using ha.2.1⟩
      exact (Function.update_of_ne ha.2.1 ..).trans ((Function.update_of_ne ha.2.2 ..).trans (hrest a hold))
    · simp [hsize]

/-- `deQueue` takes the first node off the chain. -/
theorem deQueue_links {a : Nat} (h : q.Links ((a, fd) :: cells)) :
    ∃ q', q.deQueue = some (fd, q') ∧ q.head = some a ∧ q'.Links cells := by
  obtain ⟨hc, hnodup, hlast, hrest, hsize⟩ := h
  obtain ⟨hp, next, hcell, hchain⟩ := hc
  simp only [List.map_cons, List.nodup_cons] at hnodup
  have hne : q.size ≠ 0 := by simp [hsize]
  have hq : q.deQueue = some (fd, ⟨Function.update q.nodes a none, next,
      if q.size = 1 then none else q.last, q.size - 1⟩) := by
    simp [deQueue, hne, hp, hcell]
  refine ⟨_, hq, hp, chain_erase hchain hnodup.1, hnodup.2, ?_, ?_, by simp [hsize]⟩
  · rcases cells with _ | ⟨c, cells⟩
    · simp [hsize]
    · simp [hsize, hlast]
  · intro b hb
    by_cases hba : b = a
    · exact hba ▸ Function.update_self ..
    · exact (Function.update_of_ne hba ..).trans (hrest b (by simpa [hba] using hb))

theorem enQueue_holds (h : q.Holds fds) (hnode : q.nodes node = none) :
    ∃ q', q.enQueue node fd = some q' ∧ q'.Holds (fds ++ [fd]) := by
  obtain ⟨cells, hlinks, rfl⟩ := holds_iff.1 h
  obtain ⟨q', heq, hlinks'⟩ := enQueue_links hlinks hnode fd
  exact ⟨q', heq, holds_iff.2 ⟨_, hlinks', List.map_append⟩⟩

theorem deQueue_holds (h : q.Holds (fd :: fds)) : ∃ q', q.deQueue = some (fd, q') ∧ q'.Holds fds := by
  obtain ⟨cells, hlinks, hmap⟩ := holds_iff.1 h
  obtain ⟨⟨a, v⟩, cells, rfl⟩ : ∃ c cs, cells = c :: cs := List.exists_cons_of_ne_nil (by
    rintro rfl
    cases hmap)
  obtain ⟨rfl, rfl⟩ := List.cons.inj hmap
  obtain ⟨q', heq, -, hlinks'⟩ := deQueue_links hlinks
  exact ⟨q', heq, holds_iff.2 ⟨cells, hlinks', rfl⟩⟩

/-! ## Runs -/

/-- The two functions, as they are called. -/
inductive Op where
  | enQueue (fd : Int)
  | deQueue
deriving DecidableEq, Repr

inductive MemEvent where
  | calloc (node : Nat)
  | free (node : Nat)
deriving DecidableEq, Repr

/-- `free(p)` (`queue.c:57`). -/
def frees (q : Queue) : List MemEvent := if q.size = 0 then [] else q.head.toList.map .free

/-- One call, what it returns and what it does to the memory. `calloc` may answer with any address without a cell. -/
inductive Step (q : Queue) : Op → Int → List MemEvent → Queue → Prop
  | enQueue {fd : Int} {node : Nat} {q' : Queue} : q.nodes node = none → q.enQueue node fd = some q' →
      Step q (.enQueue fd) 0 [.calloc node] q'
  | deQueue {fd : Int} {q' : Queue} : q.deQueue = some (fd, q') → Step q .deQueue fd q.frees q'

/-- The calls one after the other, from the zeroed queue. -/
inductive Runs : List Op → List Int → List MemEvent → Queue → Prop
  | start : Runs [] [] [] empty
  | next {ops : List Op} {rs : List Int} {mem evs : List MemEvent} {q q' : Queue} {op : Op} {r : Int} :
      Runs ops rs mem q → Step q op r evs q' → Runs (ops ++ [op]) (rs ++ [r]) (mem ++ evs) q'

/-- What a list does, and returns. -/
def Op.onList : Op → List Int → List Int × Int
  | enQueue fd, fds => (fds ++ [fd], 0)
  | deQueue, [] => ([], -1)
  | deQueue, fd :: fds => (fds, fd)

/-- The list after the calls, and what they have returned. -/
def fifo (ops : List Op) : List Int × List Int :=
  ops.foldl (fun l op => ((op.onList l.1).1, l.2 ++ [(op.onList l.1).2])) ([], [])

/-- The nodes that `calloc` has returned, in this order. -/
def allocated (mem : List MemEvent) : List Nat :=
  mem.filterMap fun
    | .calloc node => some node
    | .free _ => none

/-- The nodes that `free` was called with, in this order. -/
def released (mem : List MemEvent) : List Nat :=
  mem.filterMap fun
    | .free node => some node
    | .calloc _ => none

/-- The queue after the calls is the list, and every node allocated is still in it or has been freed, one time
for every time it was allocated. -/
structure Fifo (ops : List Op) (rs : List Int) (mem : List MemEvent) (q : Queue) : Prop where
  returns : rs = (fifo ops).2
  chain : ∃ cells, q.Links cells ∧ cells.map Prod.snd = (fifo ops).1 ∧ allocated mem = released mem ++ cells.map Prod.fst
  ends : ∀ e, q.last = some e → ∃ fd, q.nodes e = some ⟨fd, none⟩
  head_null : q.head = none ↔ q.size = 0
  last_null : q.last = none ↔ q.size = 0
  gone : ∀ a b, q.nodes a = none → Reaches q.nodes a b → q.nodes b = none
  live : ∀ a b, q.head = some a → Reaches q.nodes a b → q.nodes b ≠ none

@[simp] theorem allocated_append (s t : List MemEvent) : allocated (s ++ t) = allocated s ++ allocated t :=
  List.filterMap_append
@[simp] theorem released_append (s t : List MemEvent) : released (s ++ t) = released s ++ released t :=
  List.filterMap_append

theorem fifo_append (ops : List Op) (op : Op) : fifo (ops ++ [op]) =
    ((op.onList (fifo ops).1).1, (fifo ops).2 ++ [(op.onList (fifo ops).1).2]) := by
  rw [fifo, List.foldl_append]
  rfl

section Links

theorem Links.last_cell (h : q.Links cells) {e : Nat} (he : q.last = some e) : ∃ fd, q.nodes e = some ⟨fd, none⟩ := by
  obtain ⟨hc, -, hlast, -, -⟩ := h
  rcases List.eq_nil_or_concat cells with rfl | ⟨front, ⟨a, v⟩, rfl⟩
  · rw [hlast] at he
    cases he
  · rw [List.concat_eq_append] at hc hlast
    simp only [hlast, List.map_append, List.map_cons, List.map_nil, List.getLast?_concat, Option.some.injEq] at he
    exact ⟨v, he ▸ chain_last hc⟩

theorem Links.head_null (h : q.Links cells) : q.head = none ↔ q.size = 0 := by
  obtain ⟨hc, -, -, -, hsize⟩ := h
  cases cells with
  | nil => exact iff_of_true hc hsize
  | cons c cells =>
    refine iff_of_false ?_ (by simp [hsize])
    rw [hc.1]
    exact Option.some_ne_none _

theorem Links.last_null (h : q.Links cells) : q.last = none ↔ q.size = 0 := by
  rw [h.last, h.size, List.getLast?_eq_none_iff, List.map_eq_nil_iff, List.length_eq_zero_iff]

/-- What an address without a cell reaches is that address. -/
theorem Links.gone {a b : Nat} (ha : q.nodes a = none) (hab : Reaches q.nodes a b) : q.nodes b = none :=
  reaches_of_none ha hab ▸ ha

theorem Links.live (h : q.Links cells) {a b : Nat} (ha : q.head = some a) (hab : Reaches q.nodes a b) :
    q.nodes b ≠ none := by
  have hmem : a ∈ cells.map Prod.fst := by
    cases cells with
    | nil => exact absurd ((show q.head = none from h.chain) ▸ ha) (by simp)
    | cons c cells =>
      obtain ⟨hc, -⟩ := h.chain
      obtain rfl := Option.some.inj (hc.symm.trans ha)
      simp
  obtain ⟨c, hc, rfl⟩ := List.mem_map.1 (chain_reaches h.chain hmem hab)
  obtain ⟨next, hn⟩ := chain_mem h.chain hc
  rw [hn]
  exact Option.some_ne_none _

/-- A finite chain leaves addresses. -/
theorem Links.exists_fresh (h : q.Links cells) : ∃ node, q.nodes node = none := by
  obtain ⟨node, hnode⟩ := Infinite.exists_notMem_finset (cells.map Prod.fst).toFinset
  exact ⟨node, h.rest node (by simpa using hnode)⟩

/-- One call does to the chain what it does to the list. -/
theorem step_links {op : Op} {r : Int} {evs : List MemEvent} {q' : Queue} (h : q.Links cells)
    (hs : Step q op r evs q') : ∃ cells', q'.Links cells' ∧ op.onList (cells.map Prod.snd) = (cells'.map Prod.snd, r) ∧
      cells.map Prod.fst ++ allocated evs = released evs ++ cells'.map Prod.fst := by
  cases hs with
  | @enQueue fd node _ hnode heq =>
    obtain ⟨q₁, heq', hlinks⟩ := enQueue_links h hnode fd
    obtain rfl := Option.some.inj (heq.symm.trans heq')
    refine ⟨_, hlinks, ?_, ?_⟩
    · simp [Op.onList]
    · simp [allocated, released]
  | @deQueue fd _ heq =>
    cases cells with
    | nil =>
      have hsize : q.size = 0 := h.size
      rw [deQueue, if_pos hsize, Option.some.injEq, Prod.mk.injEq] at heq
      obtain ⟨rfl, rfl⟩ := heq
      refine ⟨[], h, rfl, ?_⟩
      simp [frees, hsize, allocated, released]
    | cons c cells =>
      obtain ⟨a, v⟩ := c
      obtain ⟨q₁, heq', hhead, hlinks⟩ := deQueue_links h
      obtain ⟨rfl, rfl⟩ := Prod.mk.inj (Option.some.inj (heq.symm.trans heq'))
      have hsize : q.size ≠ 0 := by simp [h.size]
      refine ⟨cells, hlinks, rfl, ?_⟩
      simp [frees, hsize, hhead, allocated, released]

/-- No call follows a null pointer. -/
theorem Links.deQueue_ne (h : q.Links cells) : q.deQueue ≠ none := by
  cases cells with
  | nil =>
    have hsize : q.size = 0 := h.size
    rw [deQueue, if_pos hsize]
    exact Option.some_ne_none _
  | cons c cells =>
    obtain ⟨a, v⟩ := c
    obtain ⟨q', heq, -⟩ := deQueue_links h
    rw [heq]
    exact Option.some_ne_none _

theorem Links.step (h : q.Links cells) (op : Op) : ∃ r evs q', Step q op r evs q' := by
  cases op with
  | enQueue fd =>
    obtain ⟨node, hnode⟩ := h.exists_fresh
    obtain ⟨q', heq, -⟩ := enQueue_links h hnode fd
    exact ⟨0, _, q', .enQueue hnode heq⟩
  | deQueue =>
    obtain ⟨⟨fd, q'⟩, heq⟩ := Option.ne_none_iff_exists'.1 h.deQueue_ne
    exact ⟨fd, _, q', .deQueue heq⟩

end Links

/-- By induction on the calls. -/
theorem runs_links {ops : List Op} {rs : List Int} {mem : List MemEvent} (h : Runs ops rs mem q) :
    rs = (fifo ops).2 ∧ ∃ cells, q.Links cells ∧ cells.map Prod.snd = (fifo ops).1 ∧
      allocated mem = released mem ++ cells.map Prod.fst := by
  induction h with
  | start => exact ⟨rfl, [], empty_links, rfl, rfl⟩
  | next _ hs ih =>
    obtain ⟨hrs, cells, hlinks, hfds, hmem⟩ := ih
    obtain ⟨cells', hlinks', hlist, hevs⟩ := step_links hlinks hs
    rw [hfds] at hlist
    refine ⟨?_, cells', hlinks', ?_, ?_⟩
    · rw [fifo_append, hrs, hlist]
    · rw [fifo_append, hlist]
    · rw [allocated_append, released_append, hmem, List.append_assoc, hevs, List.append_assoc]

/-- **The queue refines a list.** From the zeroed queue every sequence of calls can be made, whatever address `calloc`
answers with, and then the queue is a chain of `size` nodes which holds what the list of the same calls holds. The
calls have returned what the list's have. The nodes allocated are those freed, in the same order, and then those of
the chain. -/
theorem runs_fifo (ops : List Op) : (∃ rs mem q, Runs ops rs mem q) ∧
    ∀ rs mem q, Runs ops rs mem q → Fifo ops rs mem q ∧ q.deQueue ≠ none ∧
      ∀ node fd, q.nodes node = none → q.enQueue node fd ≠ none := by
  constructor
  · induction ops using List.reverseRecOn with
    | nil => exact ⟨[], [], empty, .start⟩
    | append_singleton ops op ih =>
      obtain ⟨rs, mem, q, hruns⟩ := ih
      obtain ⟨-, cells, hlinks, -⟩ := runs_links hruns
      obtain ⟨r, evs, q', hs⟩ := hlinks.step op
      exact ⟨_, _, q', hruns.next hs⟩
  · intro rs mem q hruns
    obtain ⟨hrs, cells, hlinks, hfds, hmem⟩ := runs_links hruns
    refine ⟨⟨hrs, ⟨cells, hlinks, hfds, hmem⟩, fun e => hlinks.last_cell, hlinks.head_null, hlinks.last_null,
      fun a b => Links.gone, fun a b => hlinks.live⟩, hlinks.deQueue_ne, ?_⟩
    intro node fd hnode
    obtain ⟨q', heq, -⟩ := enQueue_links hlinks hnode fd
    rw [heq]
    exact Option.some_ne_none _

theorem runs_fifo_emptied : ∃ mem q, Runs [.enQueue 5, .deQueue, .deQueue, .enQueue 7] [0, 5, -1, 0] mem q ∧ q.size = 1 := by
  obtain ⟨⟨rs, mem, q, hruns⟩, hfifo⟩ := runs_fifo [.enQueue 5, .deQueue, .deQueue, .enQueue 7]
  obtain ⟨hrs, ⟨cells, hlinks, hfds, -⟩, -⟩ := (hfifo rs mem q hruns).1
  have hrs' : rs = [0, 5, -1, 0] := hrs
  have hone : cells.map Prod.snd = [7] := hfds
  refine ⟨mem, q, hrs' ▸ hruns, ?_⟩
  rw [hlinks.size, ← List.length_map (f := Prod.snd), hone]
  rfl

end Queue
end WindCloud
