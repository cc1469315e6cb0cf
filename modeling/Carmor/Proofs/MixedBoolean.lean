import Carmor.Passes.Mba
import Carmor.Passes.Refinement
import Carmor.Lib.MixedBoolean

/-!
# The mixed Boolean arithmetic passes

A walk that replaces instructions refines a function when each replacement, together with the
instructions inserted before it, refines the instruction it replaces. `MBAAdd` and `MBASub` are
such walks by the two identities of `Lib.MixedBoolean`.
-/

namespace Carmor.Passes

open Lib

variable {π σ : Type} {P : Platform π σ} {S : σ → σ → Prop} {call : Caller π σ}
  {next n : ValueId} {env env' env₁ env₂ : Env π}

/-! ## Builders -/

/-- Below `n` the environments have the same values. -/
def Env.Agree (n : ValueId) (env₁ env₂ : Env π) : Prop := ∀ x, x < n → env₂ x = env₁ x

theorem Env.Agree.refl (n : ValueId) (env : Env π) : env.Agree n env := fun _ _ => rfl

theorem Env.Agree.trans {m : ValueId} {env₃ : Env π} (h : env₁.Agree n env₂)
    (h' : env₂.Agree m env₃) (hnm : n ≤ m) : env₁.Agree n env₃ :=
  fun x hx => (h' x (Nat.lt_of_lt_of_le hx hnm)).trans (h x hx)

/-- The operand `v` has the value `z`, whatever names are assigned from `n` on. -/
def Yields (P : Platform π σ) (n : ValueId) (env : Env π) (v : Value) (z : Val π) : Prop :=
  ∀ env₂, env.Agree n env₂ → v.eval P env₂ = some z

theorem Yields.mono {m : ValueId} {v : Value} {z : Val π} (h : Yields P n env₁ v z)
    (hagree : env₁.Agree n env₂) (hnm : n ≤ m) : Yields P m env₂ v z :=
  fun _ h₂ => h _ (hagree.trans h₂ hnm)

theorem Yields.eval {v : Value} {z : Val π} (h : Yields P n env v z) : v.eval P env = some z :=
  h env (.refl n env)

theorem yields_constantInt (bits : Nat) (c : BitVec bits) :
    Yields P n env (.constantInt bits c) (.int bits c) := fun _ _ => rfl

/-- An operand that has a value in the source does not depend on the names of the target. -/
theorem yields_of_eval (h : EnvRel next env env') (hn : next ≤ n) {v : Value} {x x' : Val π}
    (hx : v.eval P env = some x) (hx' : v.eval P env' = some x') : Yields P n env' v x' := by
  intro env₂ h₂
  induction v with
  | reg y =>
    have hy : y < next := by
      by_contra hge
      rw [show (Value.reg y).eval P env = env y from rfl, h.below y (Nat.le_of_not_lt hge)] at hx
      cases hx
    exact (h₂ y (Nat.lt_of_lt_of_le hy hn)).trans hx'
  | constantInt bits c => exact hx'
  | function f => exact hx'
  | constant k => exact hx'
  | bitCast v ih => exact ih hx hx'

/-- The instructions inserted so far lead from `env'` to `env₁` and assign no name below `n`. -/
structure Builder.Reaches (P : Platform π σ) (call : Caller π σ) (n : ValueId) (env' : Env π)
    (B : Builder) (env₁ : Env π) : Prop where
  exec : execBody P call B.emitted env' = pure env₁
  le : n ≤ B.next
  agree : env'.Agree n env₁

theorem Builder.reaches_nil (P : Platform π σ) (call : Caller π σ) (n : ValueId) (env' : Env π) :
    Builder.Reaches P call n env' ⟨n, []⟩ env' :=
  ⟨rfl, Nat.le_refl n, .refl n env'⟩

theorem breaks_none (op : BinaryOp) {bits : Nat} (a b : BitVec bits) :
    op.breaks .none a b = false := by
  cases op <;> rfl

@[simp] theorem asInt_int (bits : Nat) (c : BitVec bits) :
    (Val.int bits c : Val π).asInt bits = some c := by
  simp [Val.asInt]

theorem evalBinary_int (op : BinaryOp) {bits : Nat} (a b : BitVec bits) :
    evalBinary P op .none (.integer bits) (.int bits a) (.int bits b) =
      .int bits (op.compute a b) := by
  simp [evalBinary, breaks_none]

/-- On the platform `P`, what is folded is a legal value for the result of the operator. -/
def Folder.Sound (P : Platform π σ) (fold : Folder) : Prop :=
  ∀ op bits a b v, fold.fold op bits a b = some v → ∀ x y, ∃ z,
    (evalBinary P op .none (.integer bits) x y).Refines z ∧
    ∀ env, a.eval P env = some x → b.eval P env = some y → v.eval P env = some z

theorem eval_of_asConstantInt {bits : Nat} {a : Value} {c : BitVec bits}
    (h : a.asConstantInt bits = some c) (env : Env π) : a.eval P env = some (.int bits c) := by
  cases a with
  | constantInt m d =>
    by_cases hm : m = bits
    · subst hm
      obtain rfl : d = c := by simpa [Value.asConstantInt] using h
      rfl
    · simp [Value.asConstantInt, hm] at h
  | _ => cases h

theorem Folder.constantInts_sound (P : Platform π σ) : Folder.constantInts.Sound P := by
  intro op bits a b v h x y
  simp only [constantInts] at h
  split at h
  · rename_i c d ha hb
    obtain rfl := Option.some.inj h
    refine ⟨evalBinary P op .none (.integer bits) x y, .refl _, fun env hx hy => ?_⟩
    rw [eval_of_asConstantInt ha] at hx
    rw [eval_of_asConstantInt hb] at hy
    obtain rfl := Option.some.inj hx
    obtain rfl := Option.some.inj hy
    rw [evalBinary_int]
    rfl
  · cases h

/-- What a builder has after a `Create` call: the operand returned has the value of the operator
on the operands given. -/
structure Created (P : Platform π σ) (call : Caller π σ) (n : ValueId) (env' : Env π) (B : Builder)
    (env₁ : Env π) (r : Value × Builder) (bits : Nat) (op : BinaryOp) (x y : Val π)
    (env₂ : Env π) (z : Val π) : Prop where
  reaches : r.2.Reaches P call n env' env₂
  agree : env₁.Agree B.next env₂
  le : B.next ≤ r.2.next
  yields : Yields P r.2.next env₂ r.1 z
  value : ∀ c d, x = .int bits c → y = .int bits d → z = .int bits (op.compute c d)

theorem createBinOp_spec {fold : Folder} (hsound : fold.Sound P) (op : BinaryOp) (bits : Nat) {a b : Value} {x y : Val π}
    {B : Builder} (hB : B.Reaches P call n env' env₁) (ha : Yields P B.next env₁ a x)
    (hb : Yields P B.next env₁ b y) :
    ∃ env₂ z, Created P call n env' B env₁ (Builder.createBinOp fold op bits a b B) bits op x y
      env₂ z := by
  cases hfold : fold.fold op bits a b with
  | some v =>
    obtain ⟨z, hz, heval⟩ := hsound op bits a b v hfold x y
    have hr : Builder.createBinOp fold op bits a b B = (v, B) := by
      simp [Builder.createBinOp, hfold]
    refine ⟨env₁, z, ?_⟩
    rw [hr]
    refine ⟨hB, .refl _ _, Nat.le_refl _, fun env₂ h₂ => heval env₂ (ha env₂ h₂) (hb env₂ h₂), ?_⟩
    rintro c d rfl rfl
    rw [evalBinary_int] at hz
    rcases hz with hz | hz
    · cases hz
    · exact hz.symm
  | none =>
    have hr : Builder.createBinOp fold op bits a b B = (.reg B.next, ⟨B.next + 1,
        B.emitted ++ [⟨B.next, .integer bits, .binary op .none a b⟩]⟩) := by
      simp [Builder.createBinOp, hfold]
    let z := evalBinary P op .none (.integer bits) x y
    have hagree : env₁.Agree B.next (env₁.set B.next z) :=
      fun u hu => Env.set_of_ne env₁ z (Nat.ne_of_lt hu)
    refine ⟨env₁.set B.next z, z, ?_⟩
    rw [hr]
    refine ⟨⟨?_, Nat.le_succ_of_le hB.le, hB.agree.trans hagree hB.le⟩, hagree, Nat.le_succ _,
      ?_, ?_⟩
    · -- the new instruction reads its operands where the builder stands
      rw [execBody_append, hB.exec, pure_bind]
      simp [execBody, Instruction.exec, Rhs.exec, ha.eval, hb.eval, require, bindResult,
        Ty.isVoidTy, z]
    · intro env₂ h₂
      exact (h₂ B.next (Nat.lt_succ_self _)).trans (Env.set_self env₁ B.next z)
    · rintro c d rfl rfl
      exact evalBinary_int op c d

/-! ## Walks -/

/-- Running a sum in place of `op` on integers gives what `op` gives. -/
structure Computes (P : Platform π σ) (call : Caller π σ) (n : ValueId) (env' : Env π)
    (r : Rhs × Builder) (bits : Nat) (op : BinaryOp) (x y : Val π) : Prop where
  sum : ∃ env₁ u v zu zv, r.1 = .binary .add .none u v ∧ r.2.Reaches P call n env' env₁ ∧
    Yields P r.2.next env₁ u zu ∧ Yields P r.2.next env₁ v zv ∧
    ∀ c d, x = .int bits c → y = .int bits d →
      evalBinary P .add .none (.integer bits) zu zv = .int bits (op.compute c d)

/-- A replacement of `op` on integers of `bits` bits. -/
structure Replacement.Sound (P : Platform π σ) (replacement : Replacement) (bits : Nat)
    (op : BinaryOp) (a b : Value) : Prop where
  le : ∀ n, n ≤ (replacement ⟨n, []⟩).2.next
  computes : ∀ {call : Caller π σ} {n : ValueId} {env' : Env π} {x y : Val π}, Yields P n env' a x → Yields P n env' b y →
      Computes P call n env' (replacement ⟨n, []⟩) bits op x y

/-- Unless both operands are integers of the right width, the result is poison. -/
theorem evalBinary_cases (op : BinaryOp) (flags : Flags) (bits : Nat) (x y : Val π) :
    evalBinary P op flags (.integer bits) x y = .poison ∨
      ∃ c d, x = .int bits c ∧ y = .int bits d ∧
        evalBinary P op flags (.integer bits) x y = .int bits (op.compute c d) := by
  have hint : ∀ {x : Val π} {c}, x.asInt bits = some c → x = .int bits c := by
    intro x c hx
    cases x with
    | int m v =>
      by_cases hm : m = bits
      · subst hm
        simpa using hx
      · simp [Val.asInt, hm] at hx
    | _ => cases hx
  simp only [evalBinary]
  cases hx : x.asInt bits with
  | none => exact .inl rfl
  | some c =>
    cases hy : y.asInt bits with
    | none => exact .inl rfl
    | some d =>
      by_cases hbreaks : op.breaks flags c d = true
      · exact .inl (if_pos hbreaks)
      · exact .inr ⟨c, d, hint hx, hint hy, if_neg hbreaks⟩

theorem bodyRefines_replace {i : Instruction} {bits : Nat} {op : BinaryOp} {flags : Flags}
    {a b : Value} (hrhs : i.rhs = .binary op flags a b) (hty : i.ty = .integer bits)
    (hid : i.id < next) (hn : next ≤ n) {replacement : Replacement}
    (hsound : replacement.Sound P bits op a b) :
    BodyRefines P next [i]
      ((replacement ⟨n, []⟩).2.emitted ++ [{ i with rhs := (replacement ⟨n, []⟩).1 }]) := by
  constructor
  intro S call call' hP hcall env env' h
  cases ha : a.eval P env with
  | none =>
    have hrun : execBody P call [i] env = throw .undefined := by
      simp only [execBody, Instruction.exec, hrhs, Rhs.exec, ha, require]
      rfl
    rw [hrun]
    exact refines_of_undefined (U := (· = Halt.undefined)) rfl _
  | some x =>
    cases hb : b.eval P env with
    | none =>
      have hrun : execBody P call [i] env = throw .undefined := by
        simp only [execBody, Instruction.exec, hrhs, Rhs.exec, ha, hb, require]
        rfl
      rw [hrun]
      exact refines_of_undefined (U := (· = Halt.undefined)) rfl _
    | some y =>
      obtain ⟨x', hx', hxx'⟩ := eval_refines h.refines ha
      obtain ⟨y', hy', hyy'⟩ := eval_refines h.refines hb
      obtain ⟨env₁, u, v, zu, zv, hr, hreach, hu, hv, hvalue⟩ :=
        (hsound.computes (yields_of_eval h hn ha hx') (yields_of_eval h hn hb hy')).sum
      have hsrc : execBody P call [i] env =
          pure (env.set i.id (evalBinary P op flags (.integer bits) x y)) := by
        simp [execBody, Instruction.exec, hrhs, hty, Rhs.exec, ha, hb, require, bindResult,
          Ty.isVoidTy]
      have htgt : execBody P call'
          ((replacement ⟨n, []⟩).2.emitted ++ [{ i with rhs := (replacement ⟨n, []⟩).1 }]) env' =
          pure (env₁.set i.id (evalBinary P .add .none (.integer bits) zu zv)) := by
        rw [execBody_append, hreach.exec, pure_bind]
        simp [execBody, Instruction.exec, hr, hty, Rhs.exec, hu.eval, hv.eval, require, bindResult,
          Ty.isVoidTy]
      rw [hsrc, htgt]
      have h₁ : EnvRel next env env₁ := by
        refine ⟨h.below, fun w z hw => ?_⟩
        have hlt : w < next := by
          by_contra hge
          rw [h.below w (Nat.le_of_not_lt hge)] at hw
          cases hw
        rw [hreach.agree w (Nat.lt_of_lt_of_le hlt hn)]
        exact h.refines w z hw
      refine refines_pure (h₁.set hid ?_)
      rcases evalBinary_cases (P := P) op flags bits x y with hpoison | ⟨c, d, rfl, rfl, hval⟩
      · exact .inl hpoison
      · -- integers are refined by themselves only
        have hxc : x' = .int bits c := by
          rcases hxx' with hx | hx
          · cases hx
          · exact hx.symm
        have hyd : y' = .int bits d := by
          rcases hyy' with hy | hy
          · cases hy
          · exact hy.symm
        rw [hval, hvalue c d hxc hyd]
        exact .refl _

theorem BodyRefines.append {is is' js js' : List Instruction} (h : BodyRefines P next is js)
    (h' : BodyRefines P next is' js') : BodyRefines P next (is ++ is') (js ++ js') := by
  constructor
  intro S call call' hP hcall env env' henv
  rw [execBody_append, execBody_append]
  exact refines_bind (h.exec hP hcall henv) fun _ _ henv₁ => h'.exec hP hcall henv₁

theorem bodyRefines_nil : BodyRefines P next [] [] := ⟨fun _ _ _ _ henv => refines_pure henv⟩

/-- An instruction that is left alone. -/
theorem bodyRefines_self {i : Instruction} (hid : i.id < next) : BodyRefines P next [i] [i] := by
  constructor
  intro S call call' hP hcall env env' henv
  simp only [execBody, bind_pure]
  exact instruction_exec_refines hP hcall henv hid

section Walk

variable {κ : Type}

/-- A pass replaces integer operators only, each by a sound replacement. -/
def VisitSound (P : Platform π σ) (visit : κ → Instruction → κ × Option Replacement) : Prop :=
  ∀ {k k' i replacement}, visit k i = (k', some replacement) →
    ∃ bits op flags a b, i.rhs = .binary op flags a b ∧ i.ty = .integer bits ∧
      replacement.Sound P bits op a b

variable {visit : κ → Instruction → κ × Option Replacement}

theorem substituteBody_none {k k' : κ} {i : Instruction} (h : visit k i = (k', none))
    (is : List Instruction) : substituteBody visit k n (i :: is) =
      ⟨(substituteBody visit k' n is).changed, (substituteBody visit k' n is).next,
        i :: (substituteBody visit k' n is).body⟩ := by
  rw [substituteBody, h]

theorem substituteBody_some {k k' : κ} {i : Instruction} {replacement : Replacement}
    (h : visit k i = (k', some replacement)) (is : List Instruction) :
    substituteBody visit k n (i :: is) =
      ⟨true, (substituteBody visit k' (replacement ⟨n, []⟩).2.next is).next,
        (replacement ⟨n, []⟩).2.emitted ++ { i with rhs := (replacement ⟨n, []⟩).1 } ::
          (substituteBody visit k' (replacement ⟨n, []⟩).2.next is).body⟩ := by
  rw [substituteBody, h]
  rfl

theorem substituteBody_refines (hvisit : VisitSound P visit) (k : κ) {is : List Instruction}
    (hids : ∀ i ∈ is, i.id < next) (hn : next ≤ n) :
    next ≤ (substituteBody visit k n is).next ∧
      BodyRefines P next is (substituteBody visit k n is).body := by
  induction is generalizing k n with
  | nil => exact ⟨hn, bodyRefines_nil⟩
  | cons i is ih =>
    have hi := hids i List.mem_cons_self
    have his := fun j hj => hids j (List.mem_cons_of_mem _ hj)
    rcases hv : visit k i with ⟨k', _ | replacement⟩
    · rw [substituteBody_none hv]
      obtain ⟨hle, hrest⟩ := ih k' his hn
      exact ⟨hle, (bodyRefines_self hi).append hrest⟩
    · rw [substituteBody_some hv]
      obtain ⟨bits, op, flags, a, b, hrhs, hty, hsound⟩ := hvisit hv
      obtain ⟨hle, hrest⟩ := ih k' his (Nat.le_trans hn (hsound.le n))
      refine ⟨hle, ?_⟩
      have h := (bodyRefines_replace hrhs hty hi hn hsound).append hrest
      rw [List.append_assoc] at h
      exact h

/-- The names that the source assigns are below `next`. -/
def BasicBlock.Below (next : ValueId) (B : BasicBlock) : Prop := ∀ x ∈ B.names, x < next

theorem blockRefines_body {B : BasicBlock} (hB : B.Below next) {js : List Instruction}
    (hjs : BodyRefines P next B.body js) : BlockRefines P next B { B with body := js } where
  id := rfl
  phis := rfl
  terminator := rfl
  phis_lt p hp := hB _ (by simp [BasicBlock.names, List.mem_map_of_mem hp])
  result_lt x hx := hB _ (by simp [BasicBlock.names, Option.mem_def.mp hx])
  body := hjs

theorem substituteBlocks_refines (hvisit : VisitSound P visit) (k : κ) {Bs : List BasicBlock}
    (hBs : ∀ B ∈ Bs, B.Below next) (hn : next ≤ n) :
    List.Forall₂ (BlockRefines P next) Bs (substituteBlocks visit k n Bs).2 := by
  induction Bs generalizing n with
  | nil => exact .nil
  | cons B Bs ih =>
    have hB := hBs B List.mem_cons_self
    have hids : ∀ i ∈ B.body, i.id < next := fun i hi =>
      hB _ (by simp [BasicBlock.names, List.mem_map_of_mem hi])
    obtain ⟨hle, hbody⟩ := substituteBody_refines hvisit k hids hn
    exact .cons (blockRefines_body hB hbody) (ih (fun A hA => hBs A (List.mem_cons_of_mem _ hA)) hle)

theorem substituteFunction_refines (hvisit : VisitSound P visit) (k : κ) (F : Function) :
    FunctionRefines P F (substituteFunction visit k F).2 where
  params := rfl
  blocks := by
    refine ⟨F.nextName, ?_, substituteBlocks_refines hvisit k ?_ (Nat.le_refl _)⟩
    · intro p hp
      exact lt_nextName (by simp [Function.names, List.mem_map_of_mem hp])
    · exact fun B hB x hx => lt_nextName_of_block hB hx

/-- A walk that reports no change has made none. -/
theorem substituteBody_unchanged {k : κ} {is : List Instruction}
    (h : (substituteBody visit k n is).changed = false) :
    (substituteBody visit k n is).body = is := by
  induction is generalizing k n with
  | nil => rfl
  | cons i is ih =>
    rcases hv : visit k i with ⟨k', _ | replacement⟩
    · rw [substituteBody_none hv] at h ⊢
      exact congrArg (i :: ·) (ih h)
    · rw [substituteBody_some hv] at h
      cases h

theorem substituteBlocks_unchanged {k : κ} {Bs : List BasicBlock}
    (h : (substituteBlocks visit k n Bs).1 = false) : (substituteBlocks visit k n Bs).2 = Bs := by
  induction Bs generalizing n with
  | nil => rfl
  | cons B Bs ih =>
    simp only [substituteBlocks, Bool.or_eq_false_iff] at h ⊢
    rw [substituteBody_unchanged h.1, ih h.2]

theorem substituteFunction_unchanged {k : κ} {F : Function}
    (h : (substituteFunction visit k F).1 = false) : (substituteFunction visit k F).2 = F := by
  simp only [substituteFunction] at h ⊢
  rw [substituteBlocks_unchanged h]

end Walk

theorem moduleRefines_map {f : Function → Function} (hf : ∀ F, FunctionRefines P F (f F))
    (M : Module) : ModuleRefines P M ⟨M.functions.map f⟩ := by
  intro k
  rw [List.getElem?_map]
  cases M.functions[k]? with
  | none => exact .none
  | some F => exact .some (hf F)

/-! ## The two passes -/

theorem createBinOp_le (fold : Folder) (op : BinaryOp) (bits : Nat) (a b : Value) (B : Builder) :
    B.next ≤ (Builder.createBinOp fold op bits a b B).2.next := by
  unfold Builder.createBinOp
  split
  · exact Nat.le_refl _
  · exact Nat.le_succ _

theorem createNot_le (fold : Folder) (bits : Nat) (a : Value) (B : Builder) :
    B.next ≤ (Builder.createNot fold bits a B).2.next :=
  createBinOp_le fold .xor bits a _ B

theorem stateM_bind {ρ α β : Type} (m : StateM ρ α) (f : α → StateM ρ β) (s : ρ) :
    (m >>= f) s = f (m s).1 (m s).2 := rfl

theorem stateM_pure {ρ α : Type} (a : α) (s : ρ) : (pure a : StateM ρ α) s = (a, s) := rfl

namespace MBAAdd

/-- The affine map undoes itself modulo 256, since `151 * 39` is one and `151 * 23 + 111` zero. -/
theorem affine_eq (s : BitVec 8) : 111 + 151 * (23 + 39 * s) = s := by bv_omega

theorem yields_const8 (k : Nat) : Yields P n env (const8 k) (.int 8 (BitVec.ofNat 8 k)) :=
  yields_constantInt 8 _

theorem sum_eq (a b : BitVec 8) :
    BinaryOp.compute .add 111 (BinaryOp.compute .mul 151 (BinaryOp.compute .add 23
      (BinaryOp.compute .mul 39 (BinaryOp.compute .add (BinaryOp.compute .xor a b)
        (BinaryOp.compute .mul 2 (BinaryOp.compute .and a b)))))) =
      BinaryOp.compute .add a b := by
  simp only [BinaryOp.compute]
  rw [affine_eq, xor_add_two_mul_and]

theorem replacement_sound {fold : Folder} (hsound : fold.Sound P) (a b : Value) :
    (replacement fold a b).Sound P 8 .add a b where
  le n := by
    simp only [replacement, stateM_bind, stateM_pure]
    iterate 6 refine Nat.le_trans ?_ (createBinOp_le ..)
    exact createBinOp_le fold .xor 8 a b ⟨n, []⟩
  computes := by
    intro call n env' x y ha hb
    simp only [replacement, stateM_bind, stateM_pure]
    -- one `Create` call after the other, each reading what the calls before it returned
    obtain ⟨env₁, z₁, h₁⟩ := createBinOp_spec hsound .xor 8
      (Builder.reaches_nil P call n env') ha hb
    generalize Builder.createBinOp fold .xor 8 a b ⟨n, []⟩ = r₁ at h₁
    obtain ⟨env₂, z₂, h₂⟩ := createBinOp_spec hsound .and 8 h₁.reaches
      (ha.mono h₁.agree h₁.le) (hb.mono h₁.agree h₁.le)
    generalize Builder.createBinOp fold .and 8 a b r₁.2 = r₂ at h₂
    obtain ⟨env₃, z₃, h₃⟩ := createBinOp_spec hsound .mul 8 h₂.reaches
      (yields_const8 2) h₂.yields
    generalize Builder.createBinOp fold .mul 8 (const8 2) r₂.1 r₂.2 = r₃ at h₃
    obtain ⟨env₄, z₄, h₄⟩ := createBinOp_spec hsound .add 8 h₃.reaches
      ((h₁.yields.mono h₂.agree h₂.le).mono h₃.agree h₃.le) h₃.yields
    generalize Builder.createBinOp fold .add 8 r₁.1 r₃.1 r₃.2 = r₄ at h₄
    obtain ⟨env₅, z₅, h₅⟩ := createBinOp_spec hsound .mul 8 h₄.reaches
      (yields_const8 39) h₄.yields
    generalize Builder.createBinOp fold .mul 8 (const8 39) r₄.1 r₄.2 = r₅ at h₅
    obtain ⟨env₆, z₆, h₆⟩ := createBinOp_spec hsound .add 8 h₅.reaches
      (yields_const8 23) h₅.yields
    generalize Builder.createBinOp fold .add 8 (const8 23) r₅.1 r₅.2 = r₆ at h₆
    obtain ⟨env₇, z₇, h₇⟩ := createBinOp_spec hsound .mul 8 h₆.reaches
      (yields_const8 151) h₆.yields
    generalize Builder.createBinOp fold .mul 8 (const8 151) r₆.1 r₆.2 = r₇ at h₇
    refine ⟨env₇, const8 111, r₇.1, .int 8 111, z₇, rfl, h₇.reaches, yields_const8 111,
      h₇.yields, ?_⟩
    intro c d hx hy
    have hsum := h₄.value _ _ (h₁.value c d hx hy) (h₃.value _ _ rfl (h₂.value c d hx hy))
    rw [h₇.value _ _ rfl (h₆.value _ _ rfl (h₅.value _ _ rfl hsum)), evalBinary_int]
    exact congrArg (Val.int 8) (sum_eq c d)

theorem visit_sound {fold : Folder} (hsound : fold.Sound P) (exceeds : Nat → Bool) :
    VisitSound P (visit fold exceeds) := by
  intro k k' i replacement h
  simp only [visit] at h
  cases hrhs : i.rhs with
  | binary op flags a b =>
    simp only [hrhs] at h
    split at h
    · cases h
    · rename_i hop
      split at h
      · cases h
      · rename_i hty
        split at h
        · cases h
        · obtain rfl := not_not.mp hop
          cases h
          exact ⟨8, .add, flags, a, b, rfl, not_not.mp hty, replacement_sound hsound a b⟩
  | _ => simp [hrhs] at h

/-- `MBAAdd` keeps the meaning of every module: however the builder folds the constants of the
platform, whichever candidates the generator spares, and for every relation on memories that the
platform respects, a call after the pass does what the call before the pass does, with the same
calls on the way, unless that has undefined behaviour. -/
theorem mbaAdd_refines {P : Platform π σ} {fold : Folder} (hfold : fold.Sound P)
    (exceeds : Nat → Bool) {S : σ → σ → Prop} (hP : P.Monotone S) (M : Module) (n : Nat) :
    CallerRefines S (M.callFunction P n) ((runOnModule fold exceeds M).callFunction P n) :=
  callFunction_refines hP
    (moduleRefines_map (substituteFunction_refines (visit_sound hfold exceeds) 0) M) n

/-- `f(x) = x + 5` on bytes. -/
def addFive : Module where
  functions := [{ name := "f", params := [(0, .integer 8)], blocks := [{
    id := 0, phis := [], isLandingPad := false, terminator := .ret (some (.reg 1))
    body := [⟨1, .integer 8, .binary .add .none (.reg 0) (.constantInt 8 5)⟩] }] }]

theorem mbaAdd_refines_addFive :
    runOnModule .constantInts (fun _ => false) addFive ≠ addFive ∧
      CallerRefines Eq (addFive.callFunction .bare 1)
        ((runOnModule .constantInts (fun _ => false) addFive).callFunction .bare 1) :=
  ⟨by decide, mbaAdd_refines (Folder.constantInts_sound _) _ Platform.bare_monotone addFive 1⟩

end MBAAdd

namespace MBASub

theorem replacement_sound {fold : Folder} (hsound : fold.Sound P) (bits : Nat) (a b : Value) :
    (replacement fold bits a b).Sound P bits .sub a b where
  le n := by
    simp only [replacement, stateM_bind, stateM_pure]
    refine Nat.le_trans ?_ (createBinOp_le ..)
    exact createNot_le fold bits b ⟨n, []⟩
  computes := by
    intro call n env' x y ha hb
    simp only [replacement, stateM_bind, stateM_pure, Builder.createNot]
    obtain ⟨env₁, z₁, h₁⟩ := createBinOp_spec hsound .xor bits
      (Builder.reaches_nil P call n env') hb
      (yields_constantInt bits (BitVec.allOnes bits))
    generalize Builder.createBinOp fold .xor bits b (.constantInt bits (BitVec.allOnes bits))
      ⟨n, []⟩ = r₁ at h₁
    obtain ⟨env₂, z₂, h₂⟩ := createBinOp_spec hsound .add bits h₁.reaches
      (ha.mono h₁.agree h₁.le) h₁.yields
    generalize Builder.createBinOp fold .add bits a r₁.1 r₁.2 = r₂ at h₂
    refine ⟨env₂, r₂.1, .constantInt bits 1, z₂, .int bits 1, rfl, h₂.reaches, h₂.yields,
      yields_constantInt bits 1, ?_⟩
    intro c d hx hy
    rw [h₂.value c _ hx (h₁.value d _ hy rfl), evalBinary_int]
    refine congrArg (Val.int bits) ?_
    simp only [BinaryOp.compute, BitVec.xor_allOnes]
    exact add_not_add_one c d

theorem visit_sound {fold : Folder} (hsound : fold.Sound P) : VisitSound P (visit fold) := by
  intro k k' i replacement h
  simp only [visit] at h
  cases hrhs : i.rhs with
  | binary op flags a b =>
    simp only [hrhs] at h
    split at h
    · cases h
    · rename_i hop
      obtain rfl := not_not.mp hop
      cases hty : i.ty with
      | integer bits =>
        simp only [hty] at h
        cases h
        exact ⟨bits, .sub, flags, a, b, rfl, rfl, replacement_sound hsound bits a b⟩
      | _ => simp [hty] at h
  | _ => simp [hrhs] at h

/-- `MBASub` keeps the meaning of every module, at every width of its subtractions. -/
theorem mbaSub_refines {P : Platform π σ} {fold : Folder} (hfold : fold.Sound P)
    {S : σ → σ → Prop} (hP : P.Monotone S) (M : Module) (n : Nat) :
    CallerRefines S (M.callFunction P n) ((runOnModule fold M).callFunction P n) :=
  callFunction_refines hP (moduleRefines_map (substituteFunction_refines (visit_sound hfold) ()) M) n

/-- `f(x) = x - 5` on words of 32 bits. -/
def subFive : Module where
  functions := [{ name := "f", params := [(0, .integer 32)], blocks := [{
    id := 0, phis := [], isLandingPad := false, terminator := .ret (some (.reg 1))
    body := [⟨1, .integer 32, .binary .sub .none (.reg 0) (.constantInt 32 5)⟩] }] }]

theorem mbaSub_refines_subFive :
    runOnModule .constantInts subFive ≠ subFive ∧
      CallerRefines Eq (subFive.callFunction .bare 1)
        ((runOnModule .constantInts subFive).callFunction .bare 1) :=
  ⟨by decide, mbaSub_refines (Folder.constantInts_sound _) Platform.bare_monotone subFive 1⟩

/-- The instructions that the pass looks for. -/
def isIntegerSub (i : Instruction) : Bool :=
  match i.rhs with
  | .binary op _ _ _ => op == .sub && i.ty.isIntegerTy
  | _ => false

def Function.subs (F : Function) : List Instruction :=
  (F.blocks.flatMap BasicBlock.body).filter isIntegerSub

theorem visit_eq_none {fold : Folder} {i : Instruction} (h : isIntegerSub i = false) :
    visit fold () i = ((), none) := by
  cases hrhs : i.rhs with
  | binary op flags a b =>
    cases hty : i.ty <;> cases op <;> simp_all [visit, isIntegerSub, Ty.isIntegerTy]
  | _ => simp [visit, hrhs]

/-- A replacement inserts no subtraction and is none. -/
theorem visit_eq_some (fold : Folder) {i : Instruction} (h : isIntegerSub i = true) :
    ∃ replacement, visit fold () i = ((), some replacement) ∧
      ∀ n, (replacement ⟨n, []⟩).2.emitted.filter isIntegerSub = [] ∧
        isIntegerSub { i with rhs := (replacement ⟨n, []⟩).1 } = false := by
  have hcreate : ∀ op bits a b B, op ≠ BinaryOp.sub → B.emitted.filter isIntegerSub = [] →
      (Builder.createBinOp fold op bits a b B).2.emitted.filter isIntegerSub = [] := by
    intro op bits a b B hop hB
    unfold Builder.createBinOp
    split
    · exact hB
    · simp [List.filter_append, hB, isIntegerSub, hop]
  cases hrhs : i.rhs with
  | binary op flags a b =>
    cases hty : i.ty with
    | integer bits =>
      obtain rfl : op = .sub := by simpa [isIntegerSub, hrhs, hty, Ty.isIntegerTy] using h
      refine ⟨replacement fold bits a b, by simp [visit, hrhs, hty], fun n => ⟨?_, ?_⟩⟩
      · simp only [replacement, stateM_bind, stateM_pure, Builder.createNot]
        exact hcreate _ _ _ _ _ (by decide) (hcreate _ _ _ _ _ (by decide) rfl)
      · simp only [replacement, stateM_bind, stateM_pure]
        rfl
    | _ => simp [isIntegerSub, hrhs, hty, Ty.isIntegerTy] at h
  | _ => simp [isIntegerSub, hrhs] at h

theorem body_subs (fold : Folder) (n : ValueId) (is : List Instruction) :
    (substituteBody (visit fold) () n is).body.filter isIntegerSub = [] := by
  induction is generalizing n with
  | nil => rfl
  | cons i is ih =>
    cases hi : isIntegerSub i with
    | false =>
      rw [substituteBody_none (visit_eq_none hi)]
      simp [hi, ih]
    | true =>
      obtain ⟨replacement, hvisit, hrep⟩ := visit_eq_some fold hi
      rw [substituteBody_some hvisit]
      simp [List.filter_append, hrep n, ih]

theorem body_changed (fold : Folder) (n : ValueId) (is : List Instruction) :
    (substituteBody (visit fold) () n is).changed = is.any isIntegerSub := by
  induction is generalizing n with
  | nil => rfl
  | cons i is ih =>
    cases hi : isIntegerSub i with
    | false =>
      rw [substituteBody_none (visit_eq_none hi)]
      simp [hi, ih]
    | true =>
      obtain ⟨replacement, hvisit, -⟩ := visit_eq_some fold hi
      rw [substituteBody_some hvisit]
      simp [hi]

theorem blocks_subs (fold : Folder) (n : ValueId) (Bs : List BasicBlock) :
    ((substituteBlocks (visit fold) () n Bs).2.flatMap BasicBlock.body).filter isIntegerSub
      = [] := by
  induction Bs generalizing n with
  | nil => rfl
  | cons B Bs ih =>
    simp only [substituteBlocks, List.flatMap_cons, List.filter_append, body_subs, List.nil_append]
    exact ih _

theorem blocks_changed (fold : Folder) (n : ValueId) (Bs : List BasicBlock) :
    (substituteBlocks (visit fold) () n Bs).1 =
      (Bs.flatMap BasicBlock.body).any isIntegerSub := by
  induction Bs generalizing n with
  | nil => rfl
  | cons B Bs ih =>
    simp only [substituteBlocks, List.flatMap_cons, List.any_append, body_changed]
    exact congrArg _ (ih _)

theorem run_changed (fold : Folder) (F : Function) :
    (run fold F).1 = true ↔ Function.subs F ≠ [] := by
  have hrun : (run fold F).1 = (F.blocks.flatMap BasicBlock.body).any isIntegerSub :=
    blocks_changed fold F.nextName F.blocks
  rw [hrun, List.any_eq_true, Function.subs, ne_eq, List.filter_eq_nil_iff]
  push Not
  exact Iff.rfl

/-- One run of `MBASub` is enough: it reports a change exactly when the function has a
subtraction of integers, it leaves none behind, and on its own result it reports no change and
makes none. -/
theorem run_complete (fold : Folder) (F : Function) :
    ((run fold F).1 = true ↔ Function.subs F ≠ []) ∧ Function.subs (run fold F).2 = [] ∧
      run fold (run fold F).2 = (false, (run fold F).2) := by
  have hsubs : Function.subs (run fold F).2 = [] := blocks_subs fold F.nextName F.blocks
  have hagain : (run fold (run fold F).2).1 = false := by
    rw [Bool.eq_false_iff, ne_eq, run_changed]
    exact not_not.mpr hsubs
  exact ⟨run_changed fold F, hsubs, Prod.ext hagain (substituteFunction_unchanged hagain)⟩

end MBASub

end Carmor.Passes
