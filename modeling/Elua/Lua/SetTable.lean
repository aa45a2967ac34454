import Elua.Lua.Rotable

/-!
# Assignments to a table

`luaV_settable` follows a chain of `__newindex` handlers: a table takes the value, a function is
called, and any other handler is the target of the next round. On entry it pushes a slot and fixes
the stack for emergency collections, and every exit has to undo both. Everything that throws ends in
`luaD_throw`, which clears the bit.

What runs on behalf of the interpreter (the memory manager with its finalizers, the functions that
are called, the handler of error messages) is a `Runtime`, which may change the heap and the bit.

`Restores` says that the stack pointer and the bit are as they were on entry, the bit also after an
error. The chain may end at a rotable without a handler; there the code returns with the slot and
the bit. If what is called on the way leaves a clear bit clear (`Quiet`), the state is restored
exactly if the bit was clear and the chain has another end (`restores_iff`).
-/

set_option autoImplicit false
set_option relaxedAutoImplicit false

namespace Elua.Lua

variable {N : NumberType}

/-! ### Tables, threads and what surrounds them -/

/-- A metatable is a table or a rotable. -/
inductive MetaRef
  | table (h : ℕ)
  | rotable (h : ℕ)

/-- `Table`: its keys with their values, its metatable, and the absent handlers it remembers. -/
structure Table (N : NumberType) where
  pairs : List (TValue N × TValue N)
  metatable : Option MetaRef
  flags : UInt8

/-- `lua_State` with the objects that it reaches. Stack positions count from its bottom, and
`fixedStack` is `FIXEDSTACKBIT`. -/
structure LuaState (N : NumberType) where
  stack : ℕ → TValue N
  top : ℕ
  fixedStack : Bool
  nCcalls : ℕ
  table : ℕ → Table N
  udataMetatable : ℕ → Option MetaRef
  mt : ℕ → Option MetaRef

/-- What a call into the rest of the interpreter does: it returns, or it gives the state in which it
calls `luaD_throw`. -/
abbrev Effect (N : NumberType) : Type := LuaState N → Except (LuaState N) (LuaState N)

/-- The interpreter around an assignment. Memory is claimed and collected with the stack pointer
where it was, since finalizers are called without results. -/
structure Runtime (N : NumberType) where
  /-- The constant arrays of the rotables. -/
  rotable : ℕ → List (LuaREntry N)
  /-- Whether `newkey` finds a free place for the key. -/
  hasFreePos : Table N → TValue N → Bool
  rehash : ℕ → TValue N → Effect N
  luaDCheckstack : ℕ → Effect N
  /-- The called function, up to its return. -/
  execute : ℕ → Effect N
  luaCCheckGC : Effect N
  /-- `getobjname`: the kind and the name of the variable that holds the target. -/
  getobjname : LuaState N → TValue N → Option (String × String)
  /-- The message and its handler, up to the throw. -/
  luaGErrormsg : String → LuaState N → LuaState N
  rehash_top : ∀ h key s s', rehash h key s = .ok s' → s'.top = s.top
  luaDCheckstack_top : ∀ n s s', luaDCheckstack n s = .ok s' → s'.top = s.top
  luaCCheckGC_top : ∀ s s', luaCCheckGC s = .ok s' → s'.top = s.top

/-- `LUAI_MAXCCALLS`. -/
def luaiMaxCcalls : ℕ := 200

/-- `MAXTAGLOOP`. -/
def maxTagLoop : ℕ := 100

/-- `ttype`. -/
def TValue.ttype : TValue N → ℕ
  | .nil => 0
  | .boolean _ => 1
  | .rotable _ => 2
  | .lightfunction _ => 3
  | .lightuserdata _ => 4
  | .number _ => 5
  | .string _ => 6
  | .table _ => 7
  | .function _ => 8
  | .userdata _ => 9
  | .thread _ => 10

/-- `ttisnil`. -/
def TValue.isNil : TValue N → Bool
  | .nil => true
  | _ => false

/-- The names in `luaT_typenames`. -/
def typeName : TValue N → String
  | .nil => "nil"
  | .boolean _ => "boolean"
  | .rotable _ => "romtable"
  | .lightfunction _ => "lightfunction"
  | .lightuserdata _ | .userdata _ => "userdata"
  | .number _ => "number"
  | .string _ => "string"
  | .table _ => "table"
  | .function _ => "function"
  | .thread _ => "thread"

/-- A write to a position of the stack. -/
def LuaState.setStack (s : LuaState N) (pos : ℕ) (value : TValue N) : LuaState N :=
  { s with stack := Function.update s.stack pos value }

/-- A change of one table. -/
def LuaState.setTable (s : LuaState N) (h : ℕ) (change : Table N → Table N) : LuaState N :=
  { s with table := Function.update s.table h (change (s.table h)) }

/-- `fixedstack`. -/
def LuaState.fixedstack (s : LuaState N) : LuaState N := { s with fixedStack := true }

/-- `unfixedstack`. -/
def LuaState.unfixedstack (s : LuaState N) : LuaState N := { s with fixedStack := false }

/-! ### Errors and calls -/

/-- `luaD_throw`, as far as it leaves a trace in the thread. -/
def luaDThrow {α : Type} (s : LuaState N) : Except (LuaState N) α := .error s.unfixedstack

/-- What the rest of the interpreter throws goes through `luaD_throw`. -/
def throwing (result : Except (LuaState N) (LuaState N)) : Except (LuaState N) (LuaState N) :=
  match result with
  | .ok s => .ok s
  | .error s => luaDThrow s

section Operations

variable (rt : Runtime N)

/-- `luaG_runerror`. -/
def luaGRunerror {α : Type} (s : LuaState N) (message : String) : Except (LuaState N) α :=
  luaDThrow (rt.luaGErrormsg message s)

/-- `luaG_typeerror`. -/
def luaGTypeerror {α : Type} (s : LuaState N) (o : TValue N) (op : String) :
    Except (LuaState N) α :=
  match rt.getobjname s o with
  | some (kind, name) =>
    luaGRunerror rt s
      ("attempt to " ++ op ++ " " ++ kind ++ " '" ++ name ++ "' (a " ++ typeName o ++ " value)")
  | none => luaGRunerror rt s ("attempt to " ++ op ++ " a " ++ typeName o ++ " value")

/-- `luaD_call` of a function at `func` that is to leave no results: `luaD_poscall` sets the stack
pointer to its position. -/
def luaDCall (s : LuaState N) (func : ℕ) : Except (LuaState N) (LuaState N) := do
  let s := { s with nCcalls := s.nCcalls + 1 }
  if s.nCcalls = luaiMaxCcalls then luaGRunerror rt s "C stack overflow"
  else if luaiMaxCcalls + luaiMaxCcalls / 8 ≤ s.nCcalls then luaDThrow s
  else
    let s ← throwing (rt.execute func s)
    throwing (rt.luaCCheckGC { s with top := func, nCcalls := s.nCcalls - 1 })

/-- `callTM`. -/
def callTM (s : LuaState N) (f p1 p2 p3 : TValue N) : Except (LuaState N) (LuaState N) := do
  let s := (((s.setStack s.top f).setStack (s.top + 1) p1).setStack (s.top + 2) p2).setStack
    (s.top + 3) p3
  let s ← throwing (rt.luaDCheckstack 4 s)
  let s := { s with top := s.top + 4 }
  luaDCall rt s (s.top - 4)

/-! ### Keys and handlers -/

/-- `luaH_get`: the value in the place of the key, if it has one. -/
def luaHGet (t : Table N) (key : TValue N) : Option (TValue N) :=
  if key.isNil then none
  else (t.pairs.find? fun pair ↦ rawEqual pair.1 key).map Prod.snd

/-- The node that `newkey` fills. -/
def Table.insert (key : TValue N) (t : Table N) : Table N :=
  { t with pairs := (key, .nil) :: t.pairs }

/-- `newkey`. A table grown by `rehash` has a place for the key, unless a finalizer has inserted it
meanwhile. -/
def newkey (s : LuaState N) (h : ℕ) (key : TValue N) :
    Except (LuaState N) (LuaState N × TValue N) :=
  if rt.hasFreePos (s.table h) key then .ok (s.setTable h (Table.insert key), .nil)
  else do
    let s ← throwing (rt.rehash h key s)
    let s := s.setTable h fun t ↦ { t with flags := 0 }
    match luaHGet (s.table h) key with
    | some oldval => .ok (s, oldval)
    | none => .ok (s.setTable h (Table.insert key), .nil)

/-- A number that is not equal to itself. -/
def TValue.isNaN : TValue N → Bool
  | .number n => !N.numeq n n
  | _ => false

/-- `luaH_set`: the value in the place for the key. -/
def luaHSet (s : LuaState N) (h : ℕ) (key : TValue N) :
    Except (LuaState N) (LuaState N × TValue N) :=
  let s := s.setTable h fun t ↦ { t with flags := 0 }
  match luaHGet (s.table h) key with
  | some oldval => .ok (s, oldval)
  | none =>
    if key.isNil then luaGRunerror rt s "table index is nil"
    else if key.isNaN then luaGRunerror rt s "table index is NaN"
    else newkey rt s h key

/-- The bytes of a string constant. -/
def nameBytes (name : String) : List UInt8 := name.toList.map fun c ↦ c.val.toUInt8

/-- The name of `TM_NEWINDEX`. -/
def tmNewindex : List UInt8 := nameBytes "__newindex"

/-- The bit of `TM_NEWINDEX` in the flags of a table. -/
def newindexFlag : UInt8 := 2

/-- `luaR_getmeta`. -/
def luaRGetmeta (data : ℕ) : Option MetaRef :=
  match luaRAuxfind (some (rt.rotable data)) (some (.ofBuffer (nameBytes "__metatable"))) 0 with
  | some (.rotable h, _) => some (.rotable h)
  | _ => none

/-- The handler for assignments in a metatable: `luaH_getstr` or `luaH_getstr_ro`. -/
def newindexOf (s : LuaState N) : MetaRef → TValue N
  | .table h => (luaHGet (s.table h) (.string tmNewindex)).getD .nil
  | .rotable h => luaHGetstrRo (some (rt.rotable h)) tmNewindex

/-- `fasttm`, which remembers in a table that the handler is absent. -/
def fasttm (s : LuaState N) : Option MetaRef → LuaState N × Option (TValue N)
  | none => (s, none)
  | some (.rotable h) =>
    let tm := newindexOf rt s (.rotable h)
    (s, if tm.isNil then none else some tm)
  | some (.table h) =>
    if (s.table h).flags &&& newindexFlag ≠ 0 then (s, none)
    else
      let tm := newindexOf rt s (.table h)
      if tm.isNil then
        (s.setTable h fun t ↦ { t with flags := t.flags ||| newindexFlag }, none)
      else (s, some tm)

/-- `luaT_gettmbyobj`. -/
def luaTGettmbyobj (s : LuaState N) (o : TValue N) : TValue N :=
  let mt := match o with
    | .table h => (s.table h).metatable
    | .rotable h => luaRGetmeta rt h
    | .userdata u => s.udataMetatable u
    | o => s.mt o.ttype
  match mt with
  | none => .nil
  | some mt => newindexOf rt s mt

/-! ### The assignment -/

/-- What is to be done with a target: its table takes the value, the assignment is dropped, a
function is called, or the handler is the next target. -/
inductive Target (N : NumberType)
  | store (h : ℕ)
  | drop
  | call (tm : TValue N)
  | again (tm : TValue N)

/-- A handler that is a function is called. -/
def Target.ofHandler : TValue N → Target N
  | .function p => .call (.function p)
  | .lightfunction p => .call (.lightfunction p)
  | tm => .again tm

/-- What a round of the loop of `luaV_settable` finds for its target. -/
def settableTarget (s : LuaState N) (t key : TValue N) :
    Except (LuaState N) (LuaState N × Target N) :=
  match t with
  | .table h => do
    let (s, oldval) ← luaHSet rt s h key
    if !oldval.isNil then .ok (s, .store h)
    else
      match fasttm rt s (s.table h).metatable with
      | (s, none) => .ok (s, .store h)
      | (s, some tm) => .ok (s, .ofHandler tm)
  | .rotable h =>
    match fasttm rt s (luaRGetmeta rt h) with
    | (s, none) => .ok (s, .drop)
    | (s, some tm) => .ok (s, .ofHandler tm)
  | t =>
    let tm := luaTGettmbyobj rt s t
    if tm.isNil then luaGTypeerror rt s t "index" else .ok (s, .ofHandler tm)

/-- The stack pointer and the bit as before the assignment: `L->top--` and `unfixedstack`. -/
def LuaState.release (s : LuaState N) : LuaState N := { s with top := s.top - 1 }.unfixedstack

/-- The value is written to the place of the key. -/
def Table.assign (key val : TValue N) (t : Table N) : Table N :=
  { t with
    pairs := t.pairs.map fun pair ↦ if rawEqual pair.1 key then (pair.1, val) else pair
    flags := 0 }

/-- The loop of `luaV_settable`, with the number of rounds that are left. -/
def settableLoop (key val : TValue N) :
    ℕ → LuaState N → TValue N → Except (LuaState N) (LuaState N)
  | 0, s, _ => luaGRunerror rt s "loop in settable"
  | loop + 1, s, t => do
    let (s, target) ← settableTarget rt s t key
    match target with
    | .store h => .ok (s.release.setTable h (Table.assign key val))
    | .drop => .ok s
    | .call tm => callTM rt s.release tm t key val
    | .again tm => settableLoop key val loop (s.setStack (s.top - 1) tm) tm

/-- The state in which the loop starts: a slot is pushed, and the stack is fixed. -/
def LuaState.reserve (s : LuaState N) : LuaState N :=
  { s.setStack s.top .nil with top := s.top + 1 }.fixedstack

/-- `luaV_settable`. -/
def luaVSettable (s : LuaState N) (t key val : TValue N) : Except (LuaState N) (LuaState N) :=
  settableLoop rt key val maxTagLoop s.reserve t

/-! ### What an assignment leaves -/

/-- The stack pointer and the bit are as they were in `s`, the bit also after an error. -/
def Restores (s : LuaState N) : Except (LuaState N) (LuaState N) → Prop
  | .ok s' => s'.top = s.top ∧ s'.fixedStack = s.fixedStack
  | .error s' => s'.fixedStack = s.fixedStack

/-- The chain of handlers from a target on ends at a rotable without a handler. -/
def endsDropped (key : TValue N) : ℕ → LuaState N → TValue N → Bool
  | 0, _, _ => false
  | loop + 1, s, t =>
    match settableTarget rt s t key with
    | .ok (_, .drop) => true
    | .ok (s, .again tm) => endsDropped key loop (s.setStack (s.top - 1) tm) tm
    | _ => false

/-- What is called on behalf of an assignment leaves a clear bit clear when it returns. -/
structure Quiet : Prop where
  luaDCheckstack : ∀ n s s', s.fixedStack = false → rt.luaDCheckstack n s = .ok s' →
    s'.fixedStack = false
  execute : ∀ func s s', s.fixedStack = false → rt.execute func s = .ok s' → s'.fixedStack = false
  luaCCheckGC : ∀ s s', s.fixedStack = false → rt.luaCCheckGC s = .ok s' → s'.fixedStack = false

end Operations

/-! ### Rules for results -/

section Rules

variable {α β : Type} {P : α → Prop} {Q : β → Prop}

/-- A result that satisfies a condition, or an error behind `luaD_throw`. -/
def Meets (P : α → Prop) : Except (LuaState N) α → Prop
  | .ok result => P result
  | .error s => s.fixedStack = false

theorem meets_luaDThrow (s : LuaState N) : Meets P (luaDThrow s) := rfl

theorem meets_luaGRunerror (rt : Runtime N) (s : LuaState N) (message : String) :
    Meets P (luaGRunerror rt s message) := rfl

theorem meets_luaGTypeerror (rt : Runtime N) (s : LuaState N) (o : TValue N) (op : String) :
    Meets P (luaGTypeerror rt s o op) := by
  unfold luaGTypeerror
  split <;> exact meets_luaGRunerror rt s _

theorem meets_throwing {P : LuaState N → Prop} {result : Except (LuaState N) (LuaState N)}
    (hok : ∀ s, result = .ok s → P s) : Meets P (throwing result) := by
  cases result with
  | ok s => exact hok s rfl
  | error s => exact meets_luaDThrow s

theorem Meets.bind {result : Except (LuaState N) α} {next : α → Except (LuaState N) β}
    (hresult : Meets P result) (hnext : ∀ a, P a → Meets Q (next a)) :
    Meets Q (result >>= next) := by
  cases result with
  | ok a => exact hnext a hresult
  | error s => exact hresult

end Rules

/-! ### The stack pointer -/

section Top

variable (rt : Runtime N) (s : LuaState N)

/-- A call leaves the stack pointer where the function was, and a clear bit. -/
theorem luaDCall_meets {rt : Runtime N} (hquiet : Quiet rt) {s : LuaState N}
    (hclear : s.fixedStack = false) (func : ℕ) :
    Meets (fun s' ↦ s'.top = func ∧ s'.fixedStack = false) (luaDCall rt s func) := by
  unfold luaDCall
  dsimp only
  split_ifs
  · exact meets_luaGRunerror rt _ _
  · exact meets_luaDThrow _
  · refine Meets.bind (P := fun returned ↦ returned.fixedStack = false) (meets_throwing
      fun returned hreturned ↦ hquiet.execute func _ returned (by exact hclear) hreturned)
      fun returned hbit ↦ meets_throwing fun collected hgc ↦ ?_
    exact ⟨rt.luaCCheckGC_top _ collected hgc, hquiet.luaCCheckGC _ collected (by exact hbit) hgc⟩

theorem callTM_meets {rt : Runtime N} (hquiet : Quiet rt) {s : LuaState N}
    (hclear : s.fixedStack = false) (f p1 p2 p3 : TValue N) :
    Meets (fun s' ↦ s'.top = s.top ∧ s'.fixedStack = false) (callTM rt s f p1 p2 p3) := by
  refine Meets.bind (P := fun grown ↦ grown.top = s.top ∧ grown.fixedStack = false)
    (meets_throwing fun grown hgrown ↦ ⟨rt.luaDCheckstack_top _ _ grown hgrown,
      hquiet.luaDCheckstack 4 _ grown (by exact hclear) hgrown⟩) fun grown hgrown ↦ ?_
  obtain ⟨htop, hbit⟩ := hgrown
  have hfunc : grown.top + 4 - 4 = s.top := by
    rw [Nat.add_sub_cancel]
    exact htop
  have hpushed : { grown with top := grown.top + 4 }.fixedStack = false := hbit
  rw [← hfunc]
  exact luaDCall_meets hquiet hpushed _

theorem newkey_meets (h : ℕ) (key : TValue N) :
    Meets (fun found ↦ found.1.top = s.top) (newkey rt s h key) := by
  unfold newkey
  split_ifs
  · rfl
  · refine Meets.bind (meets_throwing (rt.rehash_top h key s)) fun grown htop ↦ ?_
    dsimp only
    split <;> exact htop

theorem luaHSet_meets (h : ℕ) (key : TValue N) :
    Meets (fun found ↦ found.1.top = s.top) (luaHSet rt s h key) := by
  unfold luaHSet
  dsimp only
  split
  · rfl
  · split_ifs
    · exact meets_luaGRunerror rt _ _
    · exact meets_luaGRunerror rt _ _
    · exact newkey_meets rt _ h key

theorem fasttm_top (mt : Option MetaRef) : (fasttm rt s mt).1.top = s.top := by
  unfold fasttm
  split
  · rfl
  · rfl
  · dsimp only
    split_ifs <;> rfl

/-- The search for what to do with a target leaves the stack pointer. -/
theorem settableTarget_meets (t key : TValue N) :
    Meets (fun found ↦ found.1.top = s.top) (settableTarget rt s t key) := by
  unfold settableTarget
  split
  · next h =>
    refine Meets.bind (luaHSet_meets rt s h key) fun (placed, oldval) htop ↦ ?_
    dsimp only at htop ⊢
    split_ifs
    · exact htop
    · have hfast := fasttm_top rt placed (placed.table h).metatable
      generalize fasttm rt placed (placed.table h).metatable = found at hfast ⊢
      obtain ⟨after, _ | tm⟩ := found <;> exact Eq.trans hfast htop
  · next h =>
    have hfast := fasttm_top rt s (luaRGetmeta rt h)
    generalize fasttm rt s (luaRGetmeta rt h) = found at hfast ⊢
    obtain ⟨after, _ | tm⟩ := found <;> exact hfast
  · dsimp only
    split_ifs
    · exact meets_luaGTypeerror rt s _ _
    · rfl

end Top

/-! ### The whole assignment -/

section Assignment

variable {rt : Runtime N} (hquiet : Quiet rt) (s : LuaState N) (key val : TValue N)

/-- With the stack pointer as on entry and a clear bit, the state is restored if the bit was
clear. -/
theorem restores_of_meets {result : Except (LuaState N) (LuaState N)}
    (hresult : Meets (fun s' ↦ s'.top = s.top ∧ s'.fixedStack = false) result) :
    Restores s result ↔ s.fixedStack = false := by
  cases result with
  | ok s' =>
    obtain ⟨htop, hclear⟩ := hresult
    show s'.top = s.top ∧ s'.fixedStack = s.fixedStack ↔ s.fixedStack = false
    rw [and_iff_right htop, hclear, eq_comm]
  | error s' =>
    have hclear : s'.fixedStack = false := hresult
    show s'.fixedStack = s.fixedStack ↔ s.fixedStack = false
    rw [hclear, eq_comm]

include hquiet in
/-- The loop, whose state has one slot more than the state on entry. -/
theorem restores_settableLoop (loop : ℕ) {now : LuaState N} (htop : now.top = s.top + 1)
    (t : TValue N) :
    Restores s (settableLoop rt key val loop now t) ↔
      s.fixedStack = false ∧ endsDropped rt key loop now t = false := by
  induction loop generalizing now t with
  | zero =>
    exact (restores_of_meets s (meets_luaGRunerror rt now _)).trans (and_iff_left rfl).symm
  | succ loop ih =>
    have htarget := settableTarget_meets rt now t key
    unfold settableLoop endsDropped
    cases hround : settableTarget rt now t key with
    | error thrown =>
      rw [hround] at htarget
      have hresult : Restores s (.error thrown) ↔ s.fixedStack = false :=
        restores_of_meets s htarget
      exact hresult.trans (and_iff_left rfl).symm
    | ok found =>
      rw [hround] at htarget
      obtain ⟨after, target⟩ := found
      have hafter : after.top = s.top + 1 := Eq.trans htarget htop
      have hreleased : after.release.top = s.top := by
        show after.top - 1 = s.top
        rw [hafter, Nat.add_sub_cancel]
      cases target with
      | store h =>
        have hresult : Restores s (.ok (after.release.setTable h (Table.assign key val))) ↔
            s.fixedStack = false := restores_of_meets s ⟨hreleased, rfl⟩
        exact hresult.trans (and_iff_left rfl).symm
      | drop =>
        refine iff_of_false (fun hrestores ↦ ?_) fun hends ↦ Bool.noConfusion hends.2
        exact absurd (hafter.symm.trans hrestores.1) (Nat.succ_ne_self _)
      | call tm =>
        have hcall := callTM_meets (s := after.release) hquiet rfl tm t key val
        rw [hreleased] at hcall
        exact (restores_of_meets s hcall).trans (and_iff_left rfl).symm
      | again tm =>
        have hslot : (after.setStack (after.top - 1) tm).top = s.top + 1 := hafter
        exact ih hslot tm

include hquiet in
/-- If what is called leaves a clear bit clear, an assignment restores the stack pointer and the bit
exactly if the bit was clear and the chain does not end at a rotable without a handler. -/
theorem restores_iff (t : TValue N) :
    Restores s (luaVSettable rt s t key val) ↔
      s.fixedStack = false ∧ endsDropped rt key maxTagLoop s.reserve t = false :=
  restores_settableLoop hquiet s key val maxTagLoop rfl t

end Assignment

/-! ### A constant of a module -/

/-- An interpreter with one rotable, which has the entry `pi` and no metatable. -/
def constantsOnly : Runtime longNumber where
  rotable := fun _ ↦ [⟨.string (.ofBuffer (nameBytes "pi")), .number (3 : Int32)⟩, ⟨.nil, .nil⟩]
  hasFreePos := fun _ _ ↦ true
  rehash := fun _ _ s ↦ .ok s
  luaDCheckstack := fun _ s ↦ .ok s
  execute := fun _ s ↦ .ok s
  luaCCheckGC := fun s ↦ .ok s
  getobjname := fun _ _ ↦ none
  luaGErrormsg := fun _ s ↦ s
  rehash_top := fun _ _ s s' hok ↦ by rw [Except.ok.inj hok]
  luaDCheckstack_top := fun _ s s' hok ↦ by rw [Except.ok.inj hok]
  luaCCheckGC_top := fun s s' hok ↦ by rw [Except.ok.inj hok]

/-- A thread with an empty stack. -/
def emptyThread : LuaState longNumber where
  stack := fun _ ↦ .nil
  top := 0
  fixedStack := false
  nCcalls := 0
  table := fun _ ↦ ⟨[], none, 0⟩
  udataMetatable := fun _ ↦ none
  mt := fun _ ↦ none

theorem quiet_constantsOnly : Quiet constantsOnly where
  luaDCheckstack := fun _ s s' hclear hok ↦ by rw [← Except.ok.inj hok, hclear]
  execute := fun _ s s' hclear hok ↦ by rw [← Except.ok.inj hok, hclear]
  luaCCheckGC := fun s s' hclear hok ↦ by rw [← Except.ok.inj hok, hclear]

/-- A thread with a table whose handler is a second table, and the handler of that is a function. -/
def handlerThread : LuaState longNumber :=
  { emptyThread with
    table := fun h ↦ match h with
      | 0 => ⟨[], some (.table 2), 0⟩
      | 1 => ⟨[], some (.table 3), 0⟩
      | 2 => ⟨[(.string tmNewindex, .table 1)], none, 0⟩
      | _ => ⟨[(.string tmNewindex, .function 0)], none, 0⟩ }

/-- An assignment through both handlers restores the state. -/
theorem restores_iff_handlers : Restores handlerThread (luaVSettable constantsOnly handlerThread
    (.table 0) (.string (nameBytes "foo")) (.number (1 : Int32))) :=
  (restores_iff quiet_constantsOnly _ _ _ _).mpr ⟨rfl, rfl⟩

/-- The assignment `math.foo = 1` leaves a slot on the stack and the bit set. -/
theorem not_restores_constant :
    ¬ Restores emptyThread (luaVSettable constantsOnly emptyThread (.rotable 0)
      (.string (nameBytes "foo")) (.number (1 : Int32))) :=
  fun hrestores ↦ absurd hrestores.1 (by decide)

end Elua.Lua
