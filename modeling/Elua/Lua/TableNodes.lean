import Elua.Foundation.Links
import Elua.Lua.StringTable

/-!
# Tables and their nodes

`ltable.c` keeps the keys of a table in an array and in a vector of nodes. A key has a main position
among the nodes, and nodes that collide there are on a chain that starts at it. When the table has
no free node left, `rehash` counts the integer keys, gives the array and the vector new sizes, and
moves the nodes within the vector: the old chains are broken, the nodes are compacted if the vector
gets smaller, and every node is then moved to its main position or put on the chain that starts
there.

A call returns, or it throws an error and leaves the table behind, or it is `stuck`: it follows a
null pointer, or does not come to an end. `newkey` and `rehash` call each other, and `newkey` is
given the depth to which they may.
-/

set_option autoImplicit false
set_option relaxedAutoImplicit false

namespace Elua.Lua.Tables

open Foundation Links

/-! ### Keys -/

/-- `INT_MAX`. -/
def intMax : ℕ := 2 ^ 31 - 1

/-- What tables do with a type `lua_Number`. Numbers that `luai_numeq` finds equal are one element,
and there is none for a number that is not equal to itself, which is no key. -/
structure KeyNumbers where
  Number : Type
  [decEq : DecidableEq Number]
  /-- `cast_num`, of an `int`. -/
  castNum : ℤ → Number
  /-- `lua_number2int`. -/
  number2int : Number → ℤ
  /-- The `int`s of the representation of a number that is not zero. -/
  ints : Number → List UInt32
  number2int_castNum : ∀ k : ℤ, -intMax - 1 ≤ k → k ≤ intMax → number2int (castNum k) = k

attribute [instance] KeyNumbers.decEq

/-- The types whose values are addresses. -/
inductive PointerType
  | lightuserdata | rotable | lightfunction | table | function | userdata | thread
  deriving DecidableEq

/-- A key, as `luaO_rawequalObj` compares it. Strings are interned. -/
inductive Key (N : KeyNumbers)
  | number (n : N.Number)
  | string (str : List UInt8)
  | boolean (b : Bool)
  | pointer (tt : PointerType) (address : UInt32)
  deriving DecidableEq

variable {N : KeyNumbers}

/-- `iscollectable`. -/
def Key.collectable : Key N → Bool
  | .number _ | .boolean _ => false
  | .string _ => true
  | .pointer .lightuserdata _ | .pointer .rotable _ | .pointer .lightfunction _ => false
  | .pointer _ _ => true

/-- `hashmod`, as an index. -/
def hashmod (size : ℕ) (n : UInt32) : ℕ := n.toNat % ((size - 1) ||| 1)

/-- `hashnum`. -/
def hashnum (size : ℕ) (n : N.Number) : ℕ :=
  if n = N.castNum 0 then 0 else hashmod size ((N.ints n).foldl (· + ·) 0)

/-- `mainposition`, as an index. -/
def mainposition (size : ℕ) : Key N → ℕ
  | .number n => hashnum size n
  | .string str => Interning.lmod (Interning.hashString str) size
  | .boolean b => Interning.lmod (if b then 1 else 0) size
  | .pointer _ address => hashmod size address

/-- `arrayindex`. -/
def arrayindex : Key N → ℤ
  | .number n => if N.castNum (N.number2int n) = n then N.number2int n else -1
  | _ => -1

/-! ### Tables -/

/-- The key of a node. -/
inductive NodeKey (N : KeyNumbers)
  | nil
  | dead
  | key (k : Key N)
  deriving DecidableEq

/-- `Node`. A value that is `none` is nil. -/
@[ext] structure Node (N : KeyNumbers) (V : Type*) where
  key : NodeKey N
  val : Option V
  next : Option ℕ

/-- `Table`. The block of the array may be longer than `sizearray` says, `dummy` is whether `node`
is `dummynode`, and `lastfree` is an index, with zero also for pointers below the vector. -/
@[ext] structure Table (N : KeyNumbers) (V : Type*) where
  array : List (Option V)
  sizearray : ℕ
  node : ℕ → Node N V
  lsizenode : ℕ
  dummy : Bool
  lastfree : ℕ

variable {V : Type*}

/-- A node with nothing in it. -/
def emptyNode : Node N V := ⟨.nil, none, none⟩

/-- `sizenode`. -/
def Table.sizenode (t : Table N V) : ℕ := 2 ^ t.lsizenode

/-- The links of the nodes. -/
def Table.next (t : Table N V) (i : ℕ) : Option ℕ := (t.node i).next

/-- A node is stored. -/
def Table.setNode (t : Table N V) (i : ℕ) (n : Node N V) : Table N V :=
  { t with node := Function.update t.node i n }

@[simp] theorem node_setNode_self (t : Table N V) (i : ℕ) (n : Node N V) :
    (t.setNode i n).node i = n := Function.update_self ..

@[simp] theorem node_setNode_of_ne (t : Table N V) {i x : ℕ} (n : Node N V) (hne : x ≠ i) :
    (t.setNode i n).node x = t.node x := Function.update_of_ne hne ..

/-- A link is stored. -/
def Table.setNext (t : Table N V) (i : ℕ) (next : Option ℕ) : Table N V :=
  t.setNode i { t.node i with next := next }

/-- The nodes that a search from an index looks at. -/
def Table.chain (t : Table N V) (i : ℕ) : List ℕ := chainFrom t.next t.sizenode i

/-- The main position of the key of a node. -/
def Table.mainOf (t : Table N V) (i : ℕ) : Option ℕ :=
  match (t.node i).key with
  | .key k => some (mainposition t.sizenode k)
  | _ => none

/-- Where a value is. -/
inductive Slot
  | array (i : ℕ)
  | node (i : ℕ)

/-- The value there. -/
def Table.read (t : Table N V) : Slot → Option V
  | .array i => t.array.getD i none
  | .node i => (t.node i).val

/-- A value is stored. -/
def Table.store (t : Table N V) (value : Option V) : Slot → Table N V
  | .array i => { t with array := t.array.set i value }
  | .node i => t.setNode i { t.node i with val := value }

/-- What a call comes to. -/
inductive Outcome (State Value : Type*)
  | returns (state : State) (value : Value)
  | throws (state : State)
  | stuck

/-- The next call. -/
def Outcome.andThen {State Value Result : Type*} (outcome : Outcome State Value)
    (rest : State → Value → Outcome State Result) : Outcome State Result :=
  match outcome with
  | .returns state value => rest state value
  | .throws state => .throws state
  | .stuck => .stuck

/-- Which reallocations to more elements succeed, of arrays and of nodes. A reallocation to fewer
elements always does. -/
structure Memory where
  array : ℕ → ℕ → Bool
  nodes : ℕ → ℕ → Bool

/-! ### Searching -/

/-- The node that has the key. -/
def findNode (t : Table N V) (key : Key N) : Option Slot :=
  ((t.chain (mainposition t.sizenode key)).find? fun i ↦ (t.node i).key = .key key).map Slot.node

/-- `luaH_getnum`. -/
def luaHGetnum (t : Table N V) (key : ℤ) : Option Slot :=
  if 1 ≤ key ∧ key ≤ t.sizearray then some (.array (key - 1).toNat)
  else findNode t (.number (N.castNum key))

/-- `luaH_get`, with `none` for `luaO_nilobject`. -/
def luaHGet (t : Table N V) (key : Key N) : Option Slot :=
  match key with
  | .number n =>
    if N.castNum (N.number2int n) = n then luaHGetnum t (N.number2int n) else findNode t key
  | _ => findNode t key

/-- The value of a key. -/
def Table.get (t : Table N V) (key : Key N) : Option V := (luaHGet t key).bind t.read

/-! ### Counting -/

/-- `MAXBITS`. -/
def maxBits : ℕ := 26

/-- `MAXASIZE`. -/
def maxAsize : ℕ := 2 ^ maxBits

/-- `ceillog2`. -/
def ceillog2 (x : ℕ) : ℕ := if x ≤ 1 then 0 else Nat.log2 (x - 1) + 1

/-- The loop of `computesizes`, from a number `i` of bits on: `na` and `n`. The last turn is that of
the last element of `nums`. -/
def computesizesLoop (nums : ℕ → ℕ) (narray : ℕ) : ℕ → ℕ → ℕ → ℕ → ℕ → ℕ × ℕ
  | 0, _, _, na, n => (na, n)
  | turns + 1, i, a, na, n =>
    if 2 ^ i / 2 < narray then
      let a' := if 0 < nums i then a + nums i else a
      let better := 0 < nums i ∧ 2 ^ i / 2 < a'
      let na' := if better then a' else na
      let n' := if better then 2 ^ i else n
      if a' = narray then (na', n') else computesizesLoop nums narray turns (i + 1) a' na' n'
    else (na, n)

/-- `computesizes`: how many keys go to the array, and its size. -/
def computesizes (nums : ℕ → ℕ) (narray : ℕ) : ℕ × ℕ :=
  computesizesLoop nums narray (maxBits + 1) 0 0 0 0

/-- `countint`. -/
def countint (key : Key N) (nums : ℕ → ℕ) : ℕ × (ℕ → ℕ) :=
  if 0 < arrayindex key ∧ arrayindex key ≤ maxAsize then
    (1, Function.update nums (ceillog2 (arrayindex key).toNat)
      (nums (ceillog2 (arrayindex key).toNat) + 1))
  else (0, nums)

/-- The number of values from one index of the array to another one, counted from one. -/
def countSlice (t : Table N V) (i lim : ℕ) : ℕ :=
  ((List.range' i (lim + 1 - i)).filter fun k ↦ (t.array.getD (k - 1) none).isSome).length

/-- The loop of `numusearray`, from a slice `lg` on that starts at `i`. -/
def numusearrayLoop (t : Table N V) : ℕ → ℕ → ℕ → ℕ → (ℕ → ℕ) → ℕ × (ℕ → ℕ)
  | 0, _, _, ause, nums => (ause, nums)
  | slices + 1, lg, i, ause, nums =>
    if t.sizearray < 2 ^ lg ∧ t.sizearray < i then (ause, nums)
    else
      let lim := min (2 ^ lg) t.sizearray
      let lc := countSlice t i lim
      numusearrayLoop t slices (lg + 1) (max i (lim + 1)) (ause + lc)
        (Function.update nums lg (nums lg + lc))

/-- `numusearray`. -/
def numusearray (t : Table N V) (nums : ℕ → ℕ) : ℕ × (ℕ → ℕ) :=
  numusearrayLoop t (maxBits + 1) 0 1 0 nums

/-- The loop of `numusehash`, from a node down: the integer keys, all keys, and `nums`. -/
def numusehashLoop (t : Table N V) : ℕ → ℕ → ℕ → (ℕ → ℕ) → ℕ × ℕ × (ℕ → ℕ)
  | 0, ause, totaluse, nums => (ause, totaluse, nums)
  | i + 1, ause, totaluse, nums =>
    match (t.node i).val, (t.node i).key with
    | some _, .key k =>
      let (one, nums) := countint k nums
      numusehashLoop t i (ause + one) (totaluse + 1) nums
    | some _, _ => numusehashLoop t i ause (totaluse + 1) nums
    | none, _ => numusehashLoop t i ause totaluse nums

/-- `numusehash`. -/
def numusehash (t : Table N V) (nums : ℕ → ℕ) : ℕ × ℕ × (ℕ → ℕ) :=
  numusehashLoop t t.sizenode 0 0 nums

/-! ### Vectors -/

/-- `setarrayvector`, to a greater size. -/
def setarrayvector (mem : Memory) (t : Table N V) (size : ℕ) : Outcome (Table N V) Unit :=
  if mem.array t.sizearray size then
    .returns
      { t with
        array := t.array.take t.sizearray ++ List.replicate (size - t.sizearray) none
        sizearray := size } ()
  else .throws t

/-- The loop of `getfreepos`, from a value of `lastfree`: the value at its end and the free node. -/
def freeBelow (node : ℕ → Node N V) : ℕ → ℕ × Option ℕ
  | 0 => (0, none)
  | i + 1 => if (node i).key = .nil then (i, some i) else freeBelow node i

/-- `getfreepos`. -/
def getfreepos (t : Table N V) : Option ℕ × Table N V :=
  ((freeBelow t.node t.lastfree).2, { t with lastfree := (freeBelow t.node t.lastfree).1 })

/-- `resizenodevector`. -/
def resizenodevector (mem : Memory) (t : Table N V) (oldsize newsize : ℕ) :
    Outcome (Table N V) Unit :=
  if newsize = 0 then
    .returns { t with node := fun _ ↦ emptyNode, lsizenode := 0, dummy := true, lastfree := 0 } ()
  else if maxBits < ceillog2 newsize then .throws t
  else
    let newsize := 2 ^ ceillog2 newsize
    let oldsize := if t.dummy then 0 else oldsize
    if newsize ≤ oldsize ∨ mem.nodes oldsize newsize = true then
      .returns
        { t with
          node := fun i ↦ if oldsize ≤ i ∧ i < newsize then emptyNode else t.node i
          lsizenode := ceillog2 newsize
          dummy := false
          lastfree := newsize } ()
    else .throws t

/-! ### Moving nodes -/

/-- `find_prev_node`. -/
def findPrevNode (t : Table N V) (mp next : ℕ) : Option ℕ :=
  (t.chain mp).find? fun prev ↦ t.next prev = some next

/-- `move_node`. -/
def moveNode (t : Table N V) (node : ℕ) : Option (Table N V × Bool) :=
  match t.mainOf node with
  | none => none
  | some mp =>
    if mp = node then some (t, true)
    else if (findPrevNode t mp node).isSome then some (t, true)
    else if (t.node mp).val.isSome ∨ t.dummy = true then
      match t.mainOf mp with
      | none => none
      | some othermp =>
        if othermp ≠ mp then
          let tmp := t.node node
          match findPrevNode t othermp mp with
          | some prev =>
            let t := t.setNext prev (some node)
            let t := t.setNode node (t.node mp)
            some (t.setNode mp tmp, true)
          | none => some ((t.setNode node (t.node mp)).setNode mp tmp, false)
        else
          let t := t.setNext node (t.next mp)
          some (t.setNext mp (some node), true)
    else some ((t.setNode mp (t.node node)).setNode node emptyNode, true)

/-- The loop that moves a node, and the ones it changes places with, for a number of turns. -/
def moveLoop : ℕ → Table N V → ℕ → Option (Table N V)
  | 0, _, _ => none
  | turns + 1, t, curr =>
    match moveNode t curr with
    | none => none
    | some (t, done) => if done then some t else moveLoop turns t curr

/-- `move_number`: the table if the node goes to the array. -/
def moveNumber (t : Table N V) (node : ℕ) : Option (Table N V) :=
  match (t.node node).key with
  | .key k =>
    if 1 ≤ arrayindex k ∧ arrayindex k ≤ t.sizearray then
      some
        { t.setNode node { t.node node with key := .nil, val := none } with
          array := t.array.set (arrayindex k - 1).toNat (t.node node).val }
    else none
  | _ => none

/-- A turn of the loop that breaks the chains and compacts the nodes. -/
def compactNode (nhsize : ℕ) (t : Table N V) (i : ℕ) : Option (Table N V) :=
  let t := t.setNext i none
  if (t.node i).val.isNone then some (t.setNode i { t.node i with key := .nil })
  else
    match moveNumber t i with
    | some t => some t
    | none =>
      if nhsize ≤ i then
        match getfreepos t with
        | (none, _) => none
        | (some n, t) => some (t.setNode n (t.node i))
      else some t

/-- A turn of the loop that moves the nodes to their chains. -/
def chainNode (t : Table N V) (i : ℕ) : Option (Table N V) :=
  if (t.node i).val.isSome then moveLoop (t.sizenode + 1) t i else some t

/-- The last part of `resize_hashpart`, when the vector has its new size or, if that is smaller,
still its old one. -/
def rehashNodes (mem : Memory) (oldhsize nhsize : ℕ) (t : Table N V) : Outcome (Table N V) Unit :=
  match (List.range oldhsize).foldlM (compactNode nhsize) t with
  | none => .stuck
  | some t =>
    (if nhsize < oldhsize then resizenodevector mem t oldhsize nhsize else .returns t ()).andThen
      fun t _ ↦
        match (List.range nhsize).foldlM chainNode t with
        | none => .stuck
        | some t => .returns t ()

/-- `resize_hashpart`. The new size is a power of two, so it is never zero. -/
def resizeHashpart (mem : Memory) (t : Table N V) (nhsize : ℕ) : Outcome (Table N V) Unit :=
  let oldhsize := if t.dummy then 0 else t.sizenode
  let lsize := ceillog2 nhsize
  if maxBits < lsize then .throws t
  else if oldhsize < 2 ^ lsize then
    (resizenodevector mem t oldhsize (2 ^ lsize)).andThen fun t _ ↦
      rehashNodes mem oldhsize (2 ^ lsize) t
  else rehashNodes mem oldhsize (2 ^ lsize) { t with lsizenode := lsize, lastfree := 2 ^ lsize }

/-! ### Resizing and inserting -/

/-- `luaH_setnum`, with the function for a key that is not in the table. -/
def luaHSetnum (insert : Table N V → Key N → Outcome (Table N V) Slot) (t : Table N V) (key : ℤ) :
    Outcome (Table N V) Slot :=
  match luaHGetnum t key with
  | some slot => .returns t slot
  | none => insert t (.number (N.castNum key))

/-- `luaH_set`, likewise. -/
def luaHSet (insert : Table N V → Key N → Outcome (Table N V) Slot) (t : Table N V) (key : Key N) :
    Outcome (Table N V) Slot :=
  match luaHGet t key with
  | some slot => .returns t slot
  | none => insert t key

/-- The loop of `resize` that inserts the elements from the vanishing slice. -/
def reinsert (insert : Table N V → Key N → Outcome (Table N V) Slot) :
    List ℕ → Table N V → Outcome (Table N V) Unit
  | [], t => .returns t ()
  | i :: rest, t =>
    match t.array[i]? with
    | none => .stuck
    | some none => reinsert insert rest t
    | some (some value) =>
      (luaHSetnum insert t (i + 1)).andThen fun t slot ↦
        reinsert insert rest (t.store (some value) slot)

/-- `resize`. -/
def resize (insert : Table N V → Key N → Outcome (Table N V) Slot) (mem : Memory) (t : Table N V)
    (nasize nhsize : ℕ) : Outcome (Table N V) Unit :=
  let oldasize := t.sizearray
  (if oldasize < nasize then setarrayvector mem t nasize else .returns t ()).andThen fun t _ ↦
    (resizeHashpart mem t nhsize).andThen fun t _ ↦
      if nasize < oldasize then
        (reinsert insert (List.range' nasize (oldasize - nasize))
            { t with sizearray := nasize }).andThen fun t _ ↦
          .returns { t with array := t.array.take nasize } ()
      else .returns t ()

/-- `luaH_resizearray`. -/
def luaHResizearray (insert : Table N V → Key N → Outcome (Table N V) Slot) (mem : Memory)
    (t : Table N V) (nasize : ℕ) : Outcome (Table N V) Unit :=
  resize insert mem t nasize (if t.dummy then 0 else t.sizenode)

/-- The sizes that `rehash` finds for the array and the nodes. -/
def rehashSizes (t : Table N V) (ek : Key N) : ℕ × ℕ :=
  let (arrayUse, nums) := numusearray t fun _ ↦ 0
  let (hashInts, hashUse, nums) := numusehash t nums
  let (one, nums) := countint ek nums
  let (na, nasize) := computesizes nums (arrayUse + hashInts + one)
  (nasize, arrayUse + hashUse + 1 - na)

/-- `rehash`. -/
def rehash (insert : Table N V → Key N → Outcome (Table N V) Slot) (mem : Memory) (t : Table N V)
    (ek : Key N) : Outcome (Table N V) Unit :=
  resize insert mem t (rehashSizes t ek).1 (rehashSizes t ek).2

/-- `newkey`, with the depth to which it may be called again. -/
def newkey (mem : Memory) : ℕ → Table N V → Key N → Outcome (Table N V) Slot
  | 0, _, _ => .stuck
  | depth + 1, t, key =>
    let mp := mainposition t.sizenode key
    if (t.node mp).val.isSome ∨ t.dummy = true then
      match getfreepos t with
      | (none, t) =>
        (rehash (newkey mem depth) mem t key).andThen fun t _ ↦ luaHSet (newkey mem depth) t key
      | (some n, t) =>
        match t.mainOf mp with
        | none => .stuck
        | some othern =>
          if othern ≠ mp then
            match findPrevNode t othern mp with
            | none => .stuck
            | some prev =>
              let t := t.setNext prev (some n)
              let t := t.setNode n (t.node mp)
              .returns (t.setNode mp ⟨.key key, none, none⟩) (.node mp)
          else
            let t := t.setNext n (t.next mp)
            let t := t.setNext mp (some n)
            .returns (t.setNode n { t.node n with key := .key key }) (.node n)
    else .returns (t.setNode mp { t.node mp with key := .key key }) (.node mp)

/-- `luaH_new`. -/
def luaHNew (mem : Memory) (narray nhash : ℕ) : Outcome (Table N V) Unit :=
  (setarrayvector mem ⟨[], 0, fun _ ↦ emptyNode, 0, true, 0⟩ narray).andThen fun t _ ↦
    resizenodevector mem t 0 nhash

end Elua.Lua.Tables
