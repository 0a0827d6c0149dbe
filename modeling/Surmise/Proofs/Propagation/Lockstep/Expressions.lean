import Surmise.Proofs.Propagation.Lockstep.Nodes

/-!
# Expressions

One lemma for each sort of expression. The scope of a comprehension that the first evaluation opens is there
in the second one, which finds it by its place.

* `Evaluator.walk_evalNode`: whatever the expression, evaluating it takes steps and gives a sound value, and
  evaluating it again gives a corresponding one.
-/

namespace Surmise

open Value Assertion

/-! ## Operators

An operator does not look at serial numbers. -/

section Operators

variable {π : Shift} {p : Prop} {n : Nat} {left right v : Value}

theorem Literal.sound_value (l : Literal) : l.value.Sound n := by
  cases l with
  | int i => cases i <;> simp [Literal.value]
  | _ => simp [Literal.value, ofText, ofBool]

theorem kin_widen (hv : v.SoundIf p n) : Kin π p n v.widen (v.shift π).widen :=
  ⟨(shift_widen π v).symm, fun hp => sound_widen (hv hp)⟩

section Binary

variable (op : BinaryOp) (hl : left.SoundIf p n) (hr : right.SoundIf p n)

include hl hr

theorem kin_generalResult :
    Kin π p n (op.generalResult left right) (op.generalResult (left.shift π) (right.shift π)) := by
  have hunknown : Kin π p n op.unknownResult op.unknownResult :=
    kin_fixed fun _ => by cases op <;> simp [BinaryOp.unknownResult]
  have hjoined : Kin π p n _ _ := (kin_widen hl).unite (kin_widen hr)
  unfold BinaryOp.generalResult
  dsimp only
  rw [hjoined.same, isEmpty_shift]
  exact kin_ite hunknown (kin_shift hjoined.sound)

omit hl hr in
theorem repeated_shift : repeated (left.shift π) (right.shift π) = (repeated left right).map (shift π) := by
  have hsequence : isSequence ∘ shift π = isSequence := funext fun v => by cases v <;> rfl
  simp only [repeated, disjuncts_shift, ← List.map_append, List.filter_map, List.map_map, hsequence]
  exact List.map_congr_left fun v _ => (shift_widen π v).symm

theorem kin_binary : Kin π p n (op.result left right) (op.result (left.shift π) (right.shift π)) := by
  have hgeneral := kin_generalResult (π := π) op hl hr
  cases op
  case div => exact kin_fixed (by simp [BinaryOp.result])
  case add =>
    simp only [BinaryOp.result, text?_shift]
    split
    · exact kin_fixed (by simp [ofText])
    · exact hgeneral
  case mod =>
    have htext : (left.disjuncts.map (shift π)).any isText = left.disjuncts.any isText := by
      rw [List.any_map]
      exact congrArg (List.any left.disjuncts) (funext fun v => by cases v <;> rfl)
    simp only [BinaryOp.result, disjuncts_shift, htext]
    exact kin_ite (kin_fixed (by simp)) hgeneral
  case mult =>
    simp only [BinaryOp.result, repeated_shift, List.isEmpty_map, ← shift_unite]
    refine kin_ite hgeneral (kin_shift fun hp => sound_unite (List.forall_mem_map.mpr fun d hd => sound_widen ?_))
    rcases List.mem_append.mp (List.mem_filter.mp hd).1 with hd | hd
    · exact (hl hp).of_mem_disjuncts hd
    · exact (hr hp).of_mem_disjuncts hd
  case and | or =>
    have heither : Kin π p n _ _ := (kin_shift hl).unite (kin_shift hr)
    simp only [BinaryOp.result, heither.same, isEmpty_shift]
    exact kin_ite (kin_fixed (by simp)) (kin_shift heither.sound)
  all_goals exact hgeneral

end Binary

theorem kin_unary (op : UnaryOp) (hv : v.SoundIf p n) : Kin π p n (op.result v) (op.result (v.shift π)) := by
  cases op
  case not =>
    cases v
    case bool b => cases b <;> exact kin_fixed (by simp [UnaryOp.result, ofBool])
    all_goals exact kin_fixed (by simp [UnaryOp.result])
  all_goals
    simp only [UnaryOp.result, isEmpty_shift]
    exact kin_ite (kin_widen hv) (kin_fixed (by simp))

variable {σ : Setting} {Γ : Assertion σ}

instance (l : Literal) : Γ.Implies (sound l.value) := implies_of_sound fun _ => l.sound_value

instance (op : BinaryOp) [Γ.Implies (sound left)] [Γ.Implies (sound right)] :
    Γ.Implies (sound (op.result left right)) :=
  ⟨fun hs h => (kin_binary (π := ⟨0, 0⟩) (p := True) op (fun _ => (sound left).of hs h)
    fun _ => (sound right).of hs h).sound trivial⟩

instance (op : UnaryOp) [Γ.Implies (sound v)] : Γ.Implies (sound (op.result v)) :=
  ⟨fun hs h => (kin_unary (π := ⟨0, 0⟩) (p := True) op fun _ => (sound v).of hs h).sound trivial⟩

end Operators

namespace Evaluator

open Run

variable {K : Reading} {texts : Bool} {depth : Nat} {R : Course} {σ : Setting} {Γ : Assertion σ} {ev : Evaluator}
  (hev : ev.Walks σ K depth) {f f' : Frame} [Γ.Implies (lawful f)] (hf : f.Twin R f') {s s' : Store}

/-! ## Comprehensions -/

theorem regular_comprehensionTable (f : Frame) (node : Nat) : Regular K texts (comprehensionTable f node) := by
  refine .get (fun s s' _ hassembly => by rw [hassembly]) fun s => ?_
  split
  · exact .pure _
  · refine .getStore fun st => .bind (.get (fun s s' _ hassembly => by rw [hassembly]) fun s => ?_) fun address => ?_
    · exact .bind (.modifyAssembly fun a => ⟨_, _, rfl, List.prefix_rfl⟩) fun _ => .pure _
    · refine .bind (.inStore (StoreM.keeps_newTable _ _)) fun table => ?_
      exact .bind (.modifyAssembly fun a => ⟨_, _, rfl, List.prefix_append ..⟩) fun _ => .pure _

/-- Names can be looked up from the scope of a comprehension, which is the same in both evaluations. -/
theorem follows_comprehensionTable {σ : Setting} (hf : f.Twin R f') (node : Nat) {s s' : Session} (hs : s.Mirror R s')
    (hend : R.Admits (comprehensionTable f node σ s).2) :
    ∃ t s₁, comprehensionTable f node σ s = (.ok t, s₁) ∧ comprehensionTable f' node σ s' = (.ok t, s') ∧
      s₁.Mirror R s' ∧ Chained s₁.store.tables.toList t := by
  rw [comprehensionTable_apply] at hend
  rw [comprehensionTable_apply, comprehensionTable_apply, hf.site]
  cases hfound : s.assembly.comprehensions.lookup (f.site node) with
  | some t =>
    have hfound' := lookup_of_prefix (hs.known.trans hs.opened) hfound
    exact ⟨t, s, rfl, by rw [hfound'], hs, hs.chained _ (mem_of_lookup hfound)⟩
  | none =>
    rw [hfound] at hend
    have hfound' := lookup_of_prefix (hend.comprehensions.trans hs.opened) (lookup_append_self hfound _)
    have htables := StoreM.prefix_opened (freeFor s ((s.store.table f.scope).address.child "[comprehension]"))
      (some f.inherited) s.store
    have hchained : Chained (withComprehension f node s).store.tables.toList ⟨s.store.tables.size⟩ :=
      StoreM.chained_opened _ (hf.inherited.mono hs.store.based)
    refine ⟨_, withComprehension f node s, rfl, by rw [hfound'], ?_, hchained⟩
    exact { hs with
        store := hs.store.openScope _ _ hend.store.known
        known := hend.comprehensions
        chained := fun entry he => by
          rcases List.mem_append.mp he with he | he
          · exact (hs.chained entry he).mono htables
          · obtain rfl := List.mem_singleton.mp he
            exact hchained }

theorem lockstep_comprehensionTable (hf : f.Twin R f') (node : Nat) {α β : Type} {k : α → β}
    {next : TableId → Run α} {next' : TableId → Run β} (hregular : ∀ t, Regular K texts (next t))
    (hnext : ∀ {s s' : Store} {t : TableId}, s.Mirror R s' → Chained s.tables.toList t →
      Lockstep K texts (R.rebase s s') k (next t) (next' t)) :
    Lockstep K texts R k (comprehensionTable f node >>= next) (comprehensionTable f' node >>= next') := by
  have hopen := @regular_comprehensionTable K texts f node
  refine ⟨.bind hopen hregular, fun σ hσ s s' hs hend => ?_⟩
  have hfirst := hopen.onward hσ.benign hσ.trusted s
  obtain ⟨t, s₁, hrun⟩ : ∃ t s₁, comprehensionTable f node σ s = (.ok t, s₁) := by
    rw [comprehensionTable_apply]
    split <;> exact ⟨_, _, rfl⟩
  rw [bind_apply, hrun] at hend
  have hmid : R.Admits (comprehensionTable f node σ s).2 := by
    rw [hrun] at hfirst ⊢
    exact ((hregular t).onward hσ.benign hσ.trusted s₁).admitted (hs.store.count ▸ hfirst.store.symbols) hend
  obtain ⟨_, _, hrun₁, hrun', hs₁, ht⟩ := follows_comprehensionTable hf node hs hmid
  obtain ⟨⟩ := hrun.symm.trans hrun₁
  rw [bind_apply, bind_apply, hrun, hrun']
  obtain ⟨hresult, hstate⟩ := (hnext hs₁.store ht).follows hσ hs₁.rebased
    ⟨⟨hend.store.count, hend.store.known⟩, hend.comprehensions⟩
  exact ⟨hresult, hs₁.unbased hstate⟩

theorem twin_comprehension (hf : f.Twin R f') (hs : s.Mirror R s') {t : TableId}
    (ht : Chained s.tables.toList t) : (f.inner t t none).Twin (R.rebase s s') (f'.inner t t none) := by
  obtain ⟨record, hrecord⟩ : ∃ record, s.tables.toList[t.index]? = some record :=
    ⟨_, List.getElem?_eq_getElem ht.lt⟩
  refine ⟨?_, ht, ht, _, hrecord, getElem?_of_begins hs.tables hrecord⟩
  rw [hf.same]
  rfl

section Comprehensions

variable {clauses : List (Clause Node)} {key : Option Node} {element : Node}

include hev hf

theorem walk_runClause {clause : Clause Node} (h : K.FitAll texts depth f clause.children) (iterated : Value)
    [Γ.Implies (sound iterated)] :
    Acts K texts R Γ (ev.runClause f clause iterated) (ev.runClause f' clause (iterated.shift R.shift)) := by
  simp only [Clause.children, List.forall_mem_cons] at h
  obtain ⟨htarget, -, hconditions⟩ := h
  refine (walk_elem iterated).bind fun elem => ?_
  rw [← shift_widen]
  exact (hev.assign elem.widen htarget hf).bind fun _ => walk_visit hev hf hconditions

theorem walk_runClauses (h : K.FitAll texts depth f (clauses.flatMap Clause.children)) :
    Acts K texts R Γ (ev.runClauses f clauses) (ev.runClauses f' clauses) := by
  induction clauses generalizing Γ with
  | nil => exact walk_pure ()
  | cons clause rest ih =>
    rw [List.flatMap_cons] at h
    obtain ⟨hclause, hrest⟩ := List.forall_mem_append.mp h
    exact (hev.part hf (hclause _ (by simp [Clause.children]))).bind fun iterated =>
      (walk_runClause hev hf hclause iterated).bind fun _ => ih hrest

/-- The clauses and the element of a comprehension, in the scopes around and of it. -/
theorem walk_comprehensionBody {g g' : Frame} [Γ.Implies (lawful g)] (hg : g.Twin R g') (horigin : g.origin = f.origin)
    (hclauses : K.FitAll texts depth f (clauses.flatMap Clause.children))
    (hkey : ∀ x ∈ key, K.Fits texts (depth - 1) f.origin x) (helement : K.Fits texts (depth - 1) f.origin element) :
    Walk K texts R Γ sounds (Prod.map (shift R.shift) (shift R.shift)) (do
        match clauses with
        | [] => pure ()
        | first :: rest =>
          ev.runClause g first (← ev.eval f first.iter)
          ev.runClauses g rest
        let key ← ev.evalOption g key
        return (key, ← ev.eval g element))
      (do
        match clauses with
        | [] => pure ()
        | first :: rest =>
          ev.runClause g' first (← ev.eval f' first.iter)
          ev.runClauses g' rest
        let key ← ev.evalOption g' key
        return (key, ← ev.eval g' element)) := by
  extract_lets give give'
  have hresult : Walk K texts R Γ sounds (Prod.map (shift R.shift) (shift R.shift)) (give ()) (give' ()) :=
    (walk_evalOption hev hg fun x hx => horigin ▸ hkey x hx).bind fun k =>
      (hev.part hg (horigin ▸ helement)).bind fun v => walk_pure (k, v)
  cases clauses with
  | nil => exact hresult
  | cons first rest =>
    rw [List.flatMap_cons] at hclauses
    obtain ⟨hfirst, hrest⟩ := List.forall_mem_append.mp hclauses
    refine (hev.part hf (hfirst _ (by simp [Clause.children]))).bind fun iterated => ?_
    refine (walk_runClause hev hg (fun x hx => horigin ▸ hfirst x hx) iterated).bind fun _ => ?_
    exact (walk_runClauses hev hg fun x hx => horigin ▸ hrest x hx).bind fun _ => hresult.weaken

theorem walk_evalComprehension (node : Nat)
    (hclauses : K.FitAll texts depth f (clauses.flatMap Clause.children))
    (hkey : ∀ x ∈ key, K.Fits texts (depth - 1) f.origin x) (helement : K.Fits texts (depth - 1) f.origin element) :
    Walk K texts R Γ sounds (Prod.map (shift R.shift) (shift R.shift))
      (ev.evalComprehension f node clauses key element) (ev.evalComprehension f' node clauses key element) := by
  have hbody : ∀ {Δ : Assertion σ} {R : Course} {f' g g' : Frame} [Δ.Implies (lawful f)] [Δ.Implies (lawful g)],
      f.Twin R f' → g.Twin R g' → g.origin = f.origin → Walk K texts R Δ sounds _ _ _ := fun hf hg horigin =>
    walk_comprehensionBody hev hf hg horigin hclauses hkey helement
  refine ⟨lockstep_comprehensionTable hf node (fun t => ?_) fun hs ht =>
    (hbody (Δ := .never) (hf.rebased hs) (twin_comprehension hf hs ht) rfl).toLockstep, fun s hs hΓ => ?_⟩
  · obtain ⟨R', houter, hinner⟩ := f.exists_twins (f.inner t t none)
    exact (hbody (Δ := .never) houter hinner rfl).regular
  · refine (does_comprehensionTable (ready hs hΓ) node).bind fun t s₁ hs₁ ht => ?_
    obtain ⟨R', houter, hinner⟩ := f.exists_twins (f.inner t t none)
    have hready : Ready σ s₁ f := (ready hs hΓ).after hs₁
    exact (hbody (Δ := (lawful f).and (lawful (f.inner t t none))) houter hinner rfl).performs hready.inv
      ⟨hready.lawful, (ready_comprehension hready.inv f ht).lawful⟩

end Comprehensions

/-! ## Members and calls -/

omit [Γ.Implies (lawful f)] in
theorem walk_readMember (receiver v : Value) [Γ.Implies (sound receiver)] [Γ.Implies (sound v)] :
    Yields K texts R Γ (readMember receiver v) (readMember (receiver.shift R.shift) (v.shift R.shift)) := by
  cases v
  case property serial getter setter deleter _ =>
    have : Γ.Implies (sound getter) := .part (v := .property serial getter setter deleter) (by simp [parts])
    simp only [shift, readMember, isInstance_shift]
    refine .ite ?_ (walk_pure (property serial getter setter deleter))
    exact walk_callAccessor getter receiver none
  all_goals exact walk_pure _

omit [Γ.Implies (lawful f)] in
theorem walk_memberOn (name : String) (receiver : Value) [Γ.Implies (sound receiver)] :
    Walk K texts R Γ (all sound) (List.map (shift R.shift)) (memberOn name receiver)
      (memberOn name (receiver.shift R.shift)) :=
  (walk_member receiver name).bind fun found => walk_mapDisjuncts found fun d _ => walk_readMember receiver d

omit [Γ.Implies (lawful f)] in
theorem walk_superValue (hf : f.Twin R f') : Yields K texts R Γ (superValue f) (superValue f') := by
  unfold superValue
  rw [hf.function]
  refine ⟨lockstep_getStore (fun s => ?_) fun {s s'} hs => ?_, fun s hs _ => does_getStore_bind ?_⟩
  · cases f.function.bind fun function => (s.function function).owner <;> exact .pure _
  · have howner : (f.function.bind fun function => (s'.function function).owner) =
        f.function.bind fun function => (s.function function).owner :=
      congrArg f.function.bind (funext fun g => by rw [hs.function])
    rw [howner]
    split
    · next c _ =>
      rw [hs.reads.flatten_bases, ← shift_superOf]
      exact lockstep_pure _
    · exact lockstep_pure empty
  · split
    · exact does_pure (sound_superOf fun v hv => hs.consistent.sound.base hv)
    · exact does_pure sound_empty

omit [Γ.Implies (lawful f)] in
theorem walk_addition (args : Args) [Γ.Implies (soundArgs args)] (receiver : Value) (name : String) :
    Yields K texts R Γ (addition args receiver name) (addition (args.shift R.shift) (receiver.shift R.shift) name) := by
  have helems := @walk_elem K texts R σ Γ (args.get 0)
  unfold addition
  dsimp only
  rw [Args.get_shift]
  split
  case h_1 => exact walk_pure_of_eq (shift_listOf R.shift (args.get 0)).symm
  case h_2 => exact walk_pure_of_eq (by rw [Args.get_shift, shift_listOf])
  case h_3 => exact helems.bind fun elem => walk_pure_of_eq (shift_listOf R.shift elem).symm
  case h_4 => exact walk_pure_of_eq (by rw [shift_setOf, shift_widen])
  case h_5 => exact helems.bind fun elem => walk_pure_of_eq (by rw [shift_setOf, shift_widen])
  case h_6 => exact walk_pure (args.get 0)
  case h_7 =>
    split
    case h_7 => exact walk_pure empty
    all_goals
      next heq =>
      cases receiver <;> simp_all [shift]

def Arguments.shift (π : Shift) (a : Arguments) : Arguments :=
  ⟨a.positional.map (Value.shift π), a.symbols, a.spread.map (Value.shift π)⟩

section Calls

variable {args : List Node} {keywords : List (Keyword Node)} {starArgs kwArgs : Option Node} {function : Node}

include hev hf

theorem walk_evalMember {base : Node} (h : K.Fits texts (depth - 1) f.origin base) (name : String) :
    Yields K texts R Γ (ev.evalMember f base name) (ev.evalMember f' base name) := by
  refine (hev.part hf h).bind fun v => ?_
  refine (walk_idle (idle_recordMember f base name) (idle_recordMember f' base name)).bind fun _ => ?_
  refine (walk_mapDisjuncts v fun d _ => walk_memberOn name d).bind fun found => ?_
  rw [← List.map_flatten, ← shift_unite]
  exact walk_pure _

theorem walk_evalArguments (h : K.FitAll texts depth f args) :
    Walk K texts R Γ (fun a => (all sound a.positional).and (all sound a.spread)) (Arguments.shift R.shift)
      (ev.evalArguments f args) (ev.evalArguments f' args) := by
  fun_induction evalArguments ev f args generalizing Γ with
  | case1 => exact walk_pure (Arguments.mk [] [] [])
  | case2 value rest ih =>
    obtain ⟨hnode, hrest⟩ := List.forall_mem_cons.mp h
    exact (hev.part hf (hnode.below (by simp [Node.children]))).bind fun v => (ih hrest).bind fun args =>
      walk_pure { args with spread := v :: args.spread }
  | case3 node rest hplain ih =>
    obtain ⟨hnode, hothers⟩ := List.forall_mem_cons.mp h
    rw [evalArguments]
    · refine (hev.part hf hnode).bind fun v => ?_
      have hrest : ∀ symbol : Option SymbolId, Walk K texts R ((Γ.and (sound v)).and nothing)
          (fun a => (all sound a.positional).and (all sound a.spread)) (Arguments.shift R.shift)
          (do
            let args ← ev.evalArguments f rest
            return { args with positional := v :: args.positional, symbols := symbol :: args.symbols })
          (do
            let args ← ev.evalArguments f' rest
            return { args with positional := v.shift R.shift :: args.positional, symbols := symbol :: args.symbols }) :=
        fun symbol => (ih hothers).bind fun args =>
          walk_pure { args with positional := v :: args.positional, symbols := symbol :: args.symbols }
      exact walk_look (Δ := fun _ => nothing) hrest (f.symbolOf? · node) (fun hs => by rw [hf.symbolOf? hs])
        fun _ _ => trivial
    · exact hplain

theorem walk_evalKeywords (h : K.FitAll texts depth f (keywords.map Keyword.value)) (args : Args)
    [Γ.Implies (soundArgs args)] :
    Walk K texts R Γ soundArgs (Args.shift R.shift) (ev.evalKeywords f keywords args)
      (ev.evalKeywords f' keywords (args.shift R.shift)) := by
  induction keywords generalizing Γ args with
  | nil => exact walk_pure args
  | cons keyword rest ih =>
    obtain ⟨hkeyword, hrest⟩ := List.forall_mem_cons.mp h
    refine (hev.part hf hkeyword).bind fun v => ?_
    have hgiven : (if keyword.name.isEmpty then { args.shift R.shift with kwarg := some (v.shift R.shift) }
        else { args.shift R.shift with
          keywords := (args.shift R.shift).keywords ++ [(keyword.name, v.shift R.shift)] }) =
        (if keyword.name.isEmpty then { args with kwarg := some v }
          else { args with keywords := args.keywords ++ [(keyword.name, v)] } : Args).shift R.shift := by
      split
      · rfl
      · simp [Args.shift, shiftEntries]
    have : (Γ.and (sound v)).Implies (soundArgs (if keyword.name.isEmpty then { args with kwarg := some v }
        else { args with keywords := args.keywords ++ [(keyword.name, v)] })) := by
      refine ⟨fun hs hΓ => ?_⟩
      have hargs := (soundArgs args).of hs hΓ.1
      split
      · exact { hargs with kwarg := fun w hw => Option.mem_some.mp hw ▸ hΓ.2 }
      · exact { hargs with
          keywords := List.forall_mem_append.mpr ⟨hargs.keywords, List.forall_mem_singleton.mpr hΓ.2⟩ }
    rw [hgiven]
    exact ih hrest _

theorem walk_evalArgs (hargs : K.FitAll texts depth f args)
    (hkeywords : K.FitAll texts depth f (keywords.map Keyword.value))
    (hspreads : ∀ x ∈ starArgs, K.Fits texts (depth - 1) f.origin x)
    (hkw : ∀ x ∈ kwArgs, K.Fits texts (depth - 1) f.origin x) :
    Walk K texts R Γ (fun given => soundArgs given.1) (Prod.map (Args.shift R.shift) id)
      (ev.evalArgs f args keywords starArgs kwArgs) (ev.evalArgs f' args keywords starArgs kwArgs) := by
  have hstar : Walk K texts R Γ (fun star => all sound star.toList) (Option.map (shift R.shift))
      (starArgs.mapM (ev.eval f)) (starArgs.mapM (ev.eval f')) := by
    cases starArgs with
    | none => exact walk_pure none
    | some node => exact (hev.part hf (hspreads node rfl)).bind fun v => walk_pure (some v)
  refine (walk_evalArguments hev hf hargs).bind fun arguments => hstar.weaken.bind fun star => ?_
  have hspread : (arguments.shift R.shift).spread ++ (star.map (shift R.shift)).toList =
      (arguments.spread ++ star.toList).map (shift R.shift) := by
    cases star <;> simp [Arguments.shift]
  have hgiven : ∀ spread : List Value, Args.mk (arguments.shift R.shift).positional []
      (if (spread.map (shift R.shift)).isEmpty then none else some (unite (spread.map (shift R.shift)))) none =
      (Args.mk arguments.positional [] (if spread.isEmpty then none else some (unite spread)) none).shift R.shift := by
    intro spread
    rw [List.isEmpty_map]
    split
    · rfl
    · rw [← shift_unite]
      rfl
  have hsound : ∀ {Δ : Assertion σ} (vs spread : List Value) [Δ.Implies (all sound vs)] [Δ.Implies (all sound spread)],
      Δ.Implies (soundArgs (Args.mk vs [] (if spread.isEmpty then none else some (unite spread)) none)) := by
    refine fun vs spread _ _ => ⟨fun hs hΔ => ⟨(all sound vs).of hs hΔ, by simp, fun w hw => ?_, by simp⟩⟩
    dsimp only at hw
    split at hw
    · cases hw
    · exact Option.mem_some.mp hw ▸ sound_unite ((all sound spread).of hs hΔ)
  dsimp only
  rw [hspread, hgiven]
  refine (walk_evalKeywords hev hf hkeywords _).bind fun given => ?_
  cases kwArgs with
  | none => exact walk_pure (given, arguments.symbols)
  | some node =>
    refine (hev.part hf (hkw node rfl)).bind fun v => ?_
    have hboth : unite [(given.shift R.shift).kwarg.getD .empty, v.shift R.shift] =
        (unite [given.kwarg.getD .empty, v]).shift R.shift := by
      cases hkw : given.kwarg <;> simp [hkw]
    have hsounds : ∀ {Δ : Assertion σ} [Δ.Implies (soundArgs given)] [Δ.Implies (sound v)],
        Δ.Implies (soundArgs { given with kwarg := some (unite [given.kwarg.getD .empty, v]) }) := by
      refine ⟨fun hs hΔ => ?_⟩
      have hgiven := (soundArgs given).of hs hΔ
      refine { hgiven with kwarg := fun w hw => Option.mem_some.mp hw ▸ sound_unite ?_ }
      simpa using ⟨sound_getD hgiven.kwarg sound_empty, (sound v).of hs hΔ⟩
    rw [hboth]
    exact walk_pure_of_eq rfl

/-- What a text holds is evaluated at the same depth, however deep it is nested. -/
theorem walk_evalText (text : String) :
    Walk K texts R Γ (all sound) (List.map (shift R.shift)) (ev.evalText f text) (ev.evalText f' text) := by
  have hinner : Frame.Twin R { f with origin := .evaluated text } { f' with origin := .evaluated text } :=
    hf.congr (by rw [hf.same]) rfl rfl rfl
  have : Γ.Implies (lawful { f with origin := .evaluated text }) := by
    refine ⟨fun hs hΓ => ?_⟩
    obtain ⟨hinherited, hscope, hfile⟩ := (lawful f).of hs hΓ
    exact ⟨hinherited, hscope, hfile⟩
  refine walk_read (fun _ _ => rfl) fun σ _ => .ite (walk_pure []) (walk_noteText text fun _ => ?_)
  have hbody : K.FitAll true depth { f with origin := .evaluated text } (σ.reader text).body := fun x hx =>
    ⟨K.text hx, .inl (.inl rfl)⟩
  generalize (σ.reader text).body = body at hbody
  have hblock := walk_block (Γ := Γ) hev hinner hbody
  split
  · next node =>
    refine .ite (hblock.bind fun _ => walk_pure []) ?_
    exact (hev.part hinner (hbody node List.mem_cons_self)).bind fun v => walk_pure [v]
  · exact hblock.bind fun _ => walk_pure []

theorem walk_evalTexts (args : Args) :
    Yields K texts R Γ (ev.evalTexts f args) (ev.evalTexts f' (args.shift R.shift)) := by
  have htexts : ((args.shift R.shift).get 0).disjuncts.filterMap text? =
      ((args.get 0).disjuncts.filterMap text?).map id := by
    rw [Args.get_shift, disjuncts_shift, List.filterMap_map, List.map_id]
    exact List.filterMap_congr fun v _ => text?_shift R.shift v
  unfold evalTexts
  rw [htexts]
  refine (walk_mapM fun text _ => walk_evalText hev hf text).bind fun found => ?_
  rw [← List.map_flatten, ← shift_unite]
  exact walk_pure _

theorem walk_callAlternative (args : Args) [Γ.Implies (soundArgs args)] (v : Value) [Γ.Implies (sound v)] :
    Yields K texts R Γ (ev.callAlternative f args v)
      (ev.callAlternative f' (args.shift R.shift) (v.shift R.shift)) := by
  have htexts := @walk_evalTexts K texts depth R σ Γ ev hev f f' _ hf args
  have hsuper := @walk_superValue K texts R σ Γ f f' hf
  have hcall := @walk_doCall K texts R σ Γ args _ v _
  cases v
  case builtin b _ =>
    cases b with
    | function g => cases g <;> first | exact htexts | exact hcall
    | type t => cases t <;> first | exact hsuper | exact hcall
  all_goals exact hcall

theorem walk_rebindMutation (h : K.Fits texts (depth - 1) f.origin function) (callee : Value)
    [Γ.Implies (sound callee)] (args : Args) [Γ.Implies (soundArgs args)] :
    Acts K texts R Γ (ev.rebindMutation f function callee args)
      (ev.rebindMutation f' function (callee.shift R.shift) (args.shift R.shift)) := by
  unfold rebindMutation
  split
  · next base _ =>
    refine .ite ?_ (walk_pure ())
    refine (walk_mapDisjuncts (Δ := sound) (g := shift R.shift) callee fun d _ => ?_).bind fun grown => ?_
    · cases d
      case method serial receiver name _ => exact walk_addition args receiver name
      all_goals exact walk_pure empty
    · rw [← shift_unite]
      dsimp only
      rw [isEmpty_shift]
      exact .ite (walk_pure ()) (walk_rebind hev hf (h.below (by simp [Node.children])) _)
  · exact walk_pure ()

theorem walk_evalCall
    (h : K.FitAll texts depth f (Node.children (.call function args keywords starArgs kwArgs))) :
    Yields K texts R Γ (ev.evalCall f function args keywords starArgs kwArgs)
      (ev.evalCall f' function args keywords starArgs kwArgs) := by
  simp only [Node.children, List.forall_mem_cons, List.forall_mem_append, Option.mem_toList] at h
  obtain ⟨hfunction, ⟨⟨hargs, hkeywords⟩, hstar⟩, hkw⟩ := h
  refine (hev.part hf hfunction).bind fun callee => ?_
  refine (walk_evalArgs hev hf hargs hkeywords hstar hkw).bind fun out => ?_
  obtain ⟨args, symbols⟩ := out
  dsimp only [Prod.map]
  refine (walk_mapDisjuncts callee fun d _ => walk_callAlternative hev hf args d).bind fun results => ?_
  refine (walk_idle (idle_recordArguments callee _) (idle_recordArguments _ _)).bind fun _ => ?_
  refine (walk_rebindMutation hev hf hfunction callee args).bind fun _ => ?_
  rw [← shift_unite]
  exact walk_pure _

end Calls

/-! ## All expressions -/

def shiftPairs (π : Shift) (entries : List (Value × Value)) : List (Value × Value) :=
  entries.map (Prod.map (Value.shift π) (Value.shift π))

theorem splatEntries_shift (hs : s.Mirror R s') (v : Value) :
    splatEntries s' (v.shift R.shift) = shiftPairs R.shift (splatEntries s v) := by
  cases v
  case kwargs dict =>
    simp only [shift, splatEntries, hs.reads.kwargsValues, ← shift_widen]
    rfl
  all_goals rfl

theorem sound_splatEntries {st : Store} (hs : st.Sound) {v : Value} (hv : v.Sound st.nextSerial) :
    ∀ e ∈ splatEntries st v, e.1.Sound st.nextSerial ∧ e.2.Sound st.nextSerial := by
  unfold splatEntries
  split
  · simpa using ⟨hv.of_mem_parts (by simp [parts]), hv.of_mem_parts (by simp [parts])⟩
  · simpa using sound_widen (hs.kwargsValues _)
  · simp

section Expressions

include hev hf

theorem walk_evalBinary {left right : Node} (hl : K.Fits texts (depth - 1) f.origin left) (op : BinaryOp)
    (hr : K.Fits texts (depth - 1) f.origin right) :
    Yields K texts R Γ (ev.evalBinary f left op right) (ev.evalBinary f' left op right) :=
  (hev.part hf hl).bind fun _ => (hev.part hf hr).bind fun _ =>
    walk_pure_of_eq (kin_binary (p := False) (n := 0) op False.elim False.elim).same

theorem walk_evalCompare {left : Node} (hl : K.Fits texts (depth - 1) f.origin left) (ops : List CompareOp)
    {others : List Node} (ho : K.FitAll texts depth f others) :
    Yields K texts R Γ (ev.evalCompare f left ops others) (ev.evalCompare f' left ops others) := by
  refine (hev.part hf hl).bind fun _ => (walk_visit hev hf ho).bind fun _ => ?_
  refine (walk_idle (idle_recordComparison f left ops others)
    (idle_recordComparison f' left ops others)).bind fun _ => ?_
  exact walk_pure (bool none)

variable {items : List (Node × Node)} {splats : List Node}

theorem walk_evalEntries
    (h : K.FitAll texts depth f (items.flatMap fun item => [item.1, item.2])) :
    Walk K texts R Γ (all sounds) (shiftPairs R.shift) (ev.evalEntries f items) (ev.evalEntries f' items) := by
  induction items generalizing Γ with
  | nil => exact walk_pure []
  | cons item rest ih =>
    rw [List.flatMap_cons] at h
    obtain ⟨hitem, hrest⟩ := List.forall_mem_append.mp h
    refine (hev.part hf (hitem item.1 (by simp))).bind fun k => (hev.part hf (hitem item.2 (by simp))).bind fun v => ?_
    refine (ih hrest).bind fun entries => ?_
    exact walk_pure_of_eq (by simp [shiftPairs])

theorem walk_evalSplats (h : K.FitAll texts depth f splats) :
    Walk K texts R Γ (all sounds) (shiftPairs R.shift) (ev.evalSplats f splats) (ev.evalSplats f' splats) := by
  induction splats generalizing Γ with
  | nil => exact walk_pure []
  | cons splat rest ih =>
    obtain ⟨hsplat, hothers⟩ := List.forall_mem_cons.mp h
    refine (hev.part hf hsplat).bind fun v => ?_
    have hrest : ∀ entries : List (Value × Value), Walk K texts R ((Γ.and (sound v)).and (all sounds entries))
        (all sounds) (shiftPairs R.shift) (do return entries ++ (← ev.evalSplats f rest))
        (do return shiftPairs R.shift entries ++ (← ev.evalSplats f' rest)) := fun entries =>
      (ih hothers).bind fun others => walk_pure_of_eq (List.map_append ..).symm
    refine walk_look (Δ := all sounds) hrest (v.disjuncts.flatMap <| splatEntries ·) (fun {s s'} hs => ?_)
      fun {s} hs hΓ e he => ?_
    · have hsplats : (v.shift R.shift).disjuncts.flatMap (splatEntries s') =
          shiftPairs R.shift (v.disjuncts.flatMap (splatEntries s)) := by
        rw [disjuncts_shift, List.flatMap_map, shiftPairs, List.map_flatMap]
        exact congrArg (List.flatMap · v.disjuncts) (funext fun d => splatEntries_shift hs d)
      rw [hsplats]
    · obtain ⟨d, hd, he⟩ := List.mem_flatMap.mp he
      exact sound_splatEntries hs.consistent.sound (Sound.of_mem_disjuncts ((sound v).of hs hΓ) hd) e he

theorem walk_evalDict
    (h : K.FitAll texts depth f (Node.children (.dict items splats))) :
    Yields K texts R Γ (ev.evalDict f items splats) (ev.evalDict f' items splats) := by
  obtain ⟨hitems, hsplats⟩ := List.forall_mem_append.mp h
  refine (walk_evalEntries hev hf hitems).bind fun entries => ?_
  refine (walk_evalSplats hev hf hsplats).bind fun added => walk_pure_of_eq ?_
  simp [shiftPairs, Function.comp_def]

theorem walk_evalSubscript {value index : Node} (hv : K.Fits texts (depth - 1) f.origin value)
    (hi : K.Fits texts (depth - 1) f.origin index) :
    Yields K texts R Γ (ev.evalSubscript f value index) (ev.evalSubscript f' value index) := by
  refine (hev.part hf hv).bind fun base => (hev.part hf hi).bind fun key => ?_
  split
  · exact walk_ask (fun w => w.answers_slice callLimit base) (fun hw => hw.slice callLimit base) fun hs h =>
      World.ensures_slice hs.consistent.sound callLimit ((sound base).of hs h)
  · exact walk_ask (fun w => w.answers_index callLimit base key) (fun hw => hw.index callLimit base key) fun hs h =>
      World.ensures_index hs.consistent.sound callLimit ((sound base).of hs h) ((sound key).of hs h)

theorem walk_evalYield {value : Option Node} (h : ∀ x ∈ value, K.Fits texts (depth - 1) f.origin x) (delegated : Bool) :
    Yields K texts R Γ (ev.evalYield f value delegated) (ev.evalYield f' value delegated) := by
  unfold evalYield
  extract_lets produce give produce' give'
  have hproduce : ∀ {Δ : Assertion σ} yielded [Δ.Implies (sound yielded)],
      Yields K texts R Δ (produce yielded) (produce' (yielded.shift R.shift)) := by
    intro Δ yielded _
    dsimp only [produce, produce']
    rw [← shift_generatorOf]
    exact (walk_produceReturn hf _).bind fun _ => walk_pure empty
  have hgive : ∀ {Δ : Assertion σ} v [Δ.Implies (sound v)], Yields K texts R Δ (give v) (give' (v.shift R.shift)) :=
    fun v _ => .ite (Walk.bind (walk_elem v) fun _ => hproduce _) (hproduce v)
  cases value with
  | some value => exact (hev.part hf (h value rfl)).bind fun v => hgive v
  | none => exact hgive .null

/-- **Evaluating an expression takes steps and gives a sound value, and the second time a corresponding one.** -/
theorem walk_evalNode {node : Node} (h : K.Known texts f.origin node) (hchild : K.FitAll texts depth f node.children) :
    Yields K texts R Γ (ev.evalNode f node) (ev.evalNode f' node) := by
  cases node with
  | ident name =>
    exact walk_looked (f.valueOf · name) (f'.valueOf · name) (fun hs => hf.valueOf hs name) fun hs _ =>
      f.sound_valueOf hs.consistent.sound name
  | literal literal => exact walk_pure_of_eq (shift_of_sound R.shift literal.sound_value).symm
  | formatted values => exact (walk_visit hev hf hchild).bind fun _ => walk_pure (str none)
  | member base name => exact walk_evalMember hev hf (hchild base (by simp [Node.children])) name
  | call function args keywords starArgs kwArgs => exact walk_evalCall hev hf hchild
  | subscript value index =>
    exact walk_evalSubscript hev hf (hchild _ (by simp [Node.children])) (hchild _ (by simp [Node.children]))
  | slice lower upper step => exact (walk_visit hev hf hchild).bind fun _ => walk_pure object
  | binary left op right =>
    exact walk_evalBinary hev hf (hchild _ (by simp [Node.children])) op (hchild _ (by simp [Node.children]))
  | unary op operand =>
    exact (hev.part hf (hchild _ (by simp [Node.children]))).bind fun v =>
      walk_pure_of_eq (kin_unary (p := False) (n := 0) op False.elim).same
  | compare left ops others =>
    obtain ⟨hleft, hothers⟩ := List.forall_mem_cons.mp hchild
    exact walk_evalCompare hev hf hleft ops hothers
  | conditional test body otherwise =>
    refine (hev.part hf (hchild _ (by simp [Node.children]))).bind fun _ => ?_
    refine (hev.part hf (hchild _ (by simp [Node.children]))).bind fun v => ?_
    exact (hev.part hf (hchild _ (by simp [Node.children]))).bind fun w => walk_pure_of_eq (by simp)
  | lambda id params body => exact walk_evalLambda hev hf h (List.forall_mem_append.mp hchild).1
  | listComp id element clauses | setComp id element clauses | generatorExp id element clauses =>
    obtain ⟨helement, hclauses⟩ := List.forall_mem_cons.mp hchild
    exact (walk_evalComprehension hev hf id hclauses (by simp) helement).bind fun found =>
      walk_pure_of_eq (by simp)
  | dictComp id key value clauses =>
    simp only [Node.children, List.forall_mem_cons] at hchild
    obtain ⟨hkey, hvalue, hclauses⟩ := hchild
    have hsome : ∀ x ∈ some key, K.Fits texts (depth - 1) f.origin x := by
      rintro _ ⟨⟩
      exact hkey
    exact (walk_evalComprehension hev hf id hclauses hsome hvalue).bind fun found =>
      walk_pure_of_eq (by simp)
  | tuple elements =>
    exact (walk_evalAll hev hf hchild).bind fun items => walk_pure_of_eq (shift_tupleOf R.shift items).symm
  | list elements => exact (walk_evalAll hev hf hchild).bind fun items => walk_pure_of_eq (by simp)
  | set elements =>
    refine (walk_evalAll hev hf hchild).bind fun items => walk_pure_of_eq ?_
    simp [Function.comp_def]
  | dict items splats => exact walk_evalDict hev hf hchild
  | starred value => exact (hev.part hf (hchild _ (by simp [Node.children]))).bind fun v => walk_elem v
  | named target value =>
    exact (hev.part hf (hchild _ (by simp [Node.children]))).bind fun v =>
      (walk_assignName hf target v false).bind fun _ => walk_pure v
  | await value => exact hev.part hf (hchild _ (by simp [Node.children]))
  | yield value delegated =>
    exact walk_evalYield hev hf (fun x hx => hchild x (Option.mem_toList.mpr hx)) delegated
  | bad pieces => exact (walk_visit hev hf hchild).bind fun _ => walk_pure empty
  | _ => exact walk_pure empty

end Expressions

end Evaluator

end Surmise
