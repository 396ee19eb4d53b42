import StackCompiler.Proofs.Descent.Readers

/-!
What one body does.

A body is compared with the reader it stands for, step by step, under the assumption that every production it asks
for answers as its own reader. At the same time every such production has to be below the one the body belongs
to, by the tokens not yet consumed or, at the same place, by rank.
-/

set_option autoImplicit false
namespace StackCompiler.Grammar.Descent

variable {α β : Type} {limit : Nat} {ts : List Token}

/-- A location that is remembered is the one that would be read. -/
def Sound : Option Note → Prop
  | none => True
  | some note => Reader.location note.start = .ok (some note.tree, note.behind) ∧ note.behind <:+ note.start

/-- The outcome is that of a reader, and the stream stands where the reader leaves off. -/
def Agrees (reader : Reader α) (ts : List Token) : Except Unexpected (α × State) → Prop
  | .error u => reader ts = .error u
  | .ok (a, s) => reader ts = .ok (a, s.ahead) ∧ s.ahead <:+ ts ∧ Sound s.memo

/-- What the activity asks for is below `limit`, and whatever agrees with the readers as an answer leads to
outcomes that satisfy `Q`. -/
def Act.Meets (limit : Nat) (Q : Except Unexpected (α × State) → Prop) : Act α → Prop
  | .done a s => Q (.ok (a, s))
  | .fail u => Q (.error u)
  | .ask p s next =>
    (Sound s.memo ∧ measure p s.ahead < limit) ∧
      (∀ u, expected p s.ahead = .error u → Q (.error u)) ∧
      ∀ r s', Agrees (expected p) s.ahead (.ok (r, s')) → (next r s').Meets limit Q

theorem Act.Meets.mono {Q Q' : Except Unexpected (α × State) → Prop} (hQ : ∀ outcome, Q outcome → Q' outcome)
    {act : Act α} (h : act.Meets limit Q) : act.Meets limit Q' := by
  induction act with
  | done a s => exact hQ _ h
  | fail u => exact hQ _ h
  | ask p s next ih =>
    obtain ⟨hbelow, herror, hnext⟩ := h
    exact ⟨hbelow, fun u hu => hQ _ (herror u hu), fun r s' hr => ih r s' (hnext r s' hr)⟩

theorem Act.Meets.bind {Q : Except Unexpected (β × State) → Prop} {act : Act α} {f : α → State → Act β}
    (h : act.Meets limit fun
      | .error u => Q (.error u)
      | .ok (a, s) => (f a s).Meets limit Q) : (act.bind f).Meets limit Q := by
  induction act with
  | done a s => exact h
  | fail u => exact h
  | ask p s next ih =>
    obtain ⟨hbelow, herror, hnext⟩ := h
    exact ⟨hbelow, herror, fun r s' hr => ih r s' (hnext r s' hr)⟩

/-- A body at `ts` does what a reader does, whatever is remembered. -/
def Mirrors (limit : Nat) (b : Body α) (reader : Reader α) (ts : List Token) : Prop :=
  ∀ memo, Sound memo → (b ⟨ts, memo⟩).Meets limit (Agrees reader ts)

def Room (limit : Nat) (ts : List Token) : Prop :=
  16 * (ts.length + 1) ≤ limit

theorem rank_lt {k : Shape} (p : Production k) : p.rank < 16 := by
  cases p with
  | chain level => cases level <;> decide
  | links level => exact Nat.zero_lt_of_lt (Nat.lt_succ_self 15)
  | _ => decide

theorem Room.below {k : Shape} (h : Room limit ts) (p : Production k) : measure p ts < limit := by
  have hrank := rank_lt p
  unfold Room at h
  unfold measure
  omega

theorem Room.mono {rest : List Token} (h : Room limit ts) (hle : rest.length ≤ ts.length) :
    Room limit rest := by
  unfold Room at h ⊢
  omega

/-- There is room behind the first token of a production. -/
theorem room_of_shorter {k : Shape} {p : Production k} {rest : List Token} (h : rest.length < ts.length) :
    Room (measure p ts) rest := by
  unfold Room measure
  omega

theorem room_tail {k : Shape} {p : Production k} (t : Token) (rest : List Token) :
    Room (measure p (t :: rest)) rest :=
  room_of_shorter (Nat.lt_succ_self _)

theorem measure_lt_of_rank {k l : Shape} {p : Production k} {q : Production l} (h : p.rank < q.rank) :
    measure p ts < measure q ts :=
  Nat.add_lt_add_left h _

namespace Mirrors

variable {b : Body α} {reader : Reader α} {f : α → Body β} {g : α → Reader β}

theorem ok (a : α) : Mirrors limit (pure a) (pure a) ts :=
  fun _ hmemo => ⟨rfl, List.suffix_refl ts, hmemo⟩

theorem stop (e : Expectation) : Mirrors limit (Descent.stop e : Body α) (Reader.fail e) ts :=
  fun _ _ => rfl

theorem congr {same : Reader α} (h : Mirrors limit b reader ts) (heq : same ts = reader ts) :
    Mirrors limit b same ts := by
  intro memo hmemo
  refine (h memo hmemo).mono ?_
  intro outcome hagrees
  rcases outcome with u | ⟨a, s⟩
  · exact heq.trans hagrees
  · exact ⟨heq.trans hagrees.1, hagrees.2⟩

theorem bind_suffix (h : Mirrors limit b reader ts)
    (hnext : ∀ a rest, reader ts = .ok (a, rest) → rest <:+ ts → Mirrors limit (f a) (g a) rest) :
    Mirrors limit (b >>= f) (reader >>= g) ts := by
  intro memo hmemo
  refine Act.Meets.bind ((h memo hmemo).mono ?_)
  intro outcome hagrees
  rcases outcome with u | ⟨a, s⟩
  · exact Reader.bind_of_error hagrees g
  · obtain ⟨hread, hsuffix, hsound⟩ := hagrees
    refine (hnext a s.ahead hread hsuffix s.memo hsound).mono ?_
    intro outcome hagrees
    rcases outcome with u | ⟨b, s'⟩
    · exact (Reader.bind_of_ok hread g).trans hagrees
    · exact ⟨(Reader.bind_of_ok hread g).trans hagrees.1, hagrees.2.1.trans hsuffix, hagrees.2.2⟩

theorem bind (h : Mirrors limit b reader ts)
    (hnext : ∀ a rest, reader ts = .ok (a, rest) → rest.length ≤ ts.length → Mirrors limit (f a) (g a) rest) :
    Mirrors limit (b >>= f) (reader >>= g) ts :=
  h.bind_suffix fun a rest hread hsuffix => hnext a rest hread hsuffix.length_le

theorem map {h : α → β} (hb : Mirrors limit b reader ts) :
    Mirrors limit (b >>= fun a => pure (h a)) (h <$> reader) ts := by
  rw [map_eq_pure_bind]
  exact hb.bind fun a _ _ _ => ok (h a)

theorem next {p : Token → Bool} {f : Option Token → Body β} {g : Option Token → Reader β}
    (hnone : Grammar.eat? p ts = none → Mirrors limit (f none) (g none) ts)
    (hsome : ∀ t rest, ts = t :: rest → p t = true → Mirrors limit (f (some t)) (g (some t)) rest) :
    Mirrors limit (Descent.eat? p >>= f) (Reader.next? p >>= g) ts := by
  refine Mirrors.bind ?_ ?_
  · intro memo hmemo
    cases ts with
    | nil => exact ⟨rfl, List.suffix_refl _, hmemo⟩
    | cons t rest =>
      by_cases hp : p t = true
      · simp only [Descent.eat?, hp, if_true]
        exact ⟨Reader.next?_of_some (eat?_cons hp rest), List.suffix_cons t rest, hmemo⟩
      · simp only [Descent.eat?, hp]
        refine ⟨Reader.next?_of_none (Reader.eat?_of_not (Bool.eq_false_iff.2 hp) rest), List.suffix_refl _, hmemo⟩
  · intro found rest hread _
    refine byHead p ts ?_ ?_
    · intro hhead
      have hfree := eat?_eq_none hhead
      rw [Reader.next?_of_none hfree] at hread
      cases hread
      exact hnone hfree
    · rintro t more rfl hp
      rw [Reader.next?, if_pos hp] at hread
      cases hread
      exact hsome t rest rfl hp

theorem expect {e : Expectation} {p : Token → Bool} {f : Token → Body β} {g : Token → Reader β}
    (hnext : ∀ t rest, ts = t :: rest → p t = true → Mirrors limit (f t) (g t) rest) :
    Mirrors limit (Descent.expect e p >>= f) (Reader.token e p >>= g) ts := by
  have hmirrors : Mirrors limit (Descent.expect e p) (Reader.token e p) ts :=
    .next (fun _ => .stop e) fun t rest _ _ => .ok t
  refine hmirrors.bind ?_
  intro t rest hread _
  refine byHead p ts ?_ ?_
  · intro hhead
    rw [Reader.token, Reader.bind_of_ok (Reader.next?_of_none (eat?_eq_none hhead))] at hread
    cases hread
  · rintro first more rfl hp
    rw [Reader.token_cons hp] at hread
    cases hread
    exact hnext t rest rfl hp

theorem perform {k : Shape} {p : Production k} (h : measure p ts < limit) :
    Mirrors limit (Descent.perform p) (expected p) ts :=
  fun _ hmemo => ⟨⟨hmemo, h⟩, fun _ hu => hu, fun _ _ hr => hr⟩

theorem required {p : Production .optional} {e : Expectation} {f : Tree → Body β} {g : Tree → Reader β}
    (h : measure p ts < limit)
    (hnext : ∀ t rest, rest.length < ts.length → Mirrors limit (f t) (g t) rest) :
    Mirrors limit (Descent.required e p >>= f) (Reader.must e (expected p) >>= g) ts := by
  have hmirrors : Mirrors limit (Descent.required e p) (Reader.must e (expected p)) ts := by
    refine (perform h).bind ?_
    intro found rest hread _
    cases found with
    | none =>
      obtain rfl := expected_declines p hread
      exact .stop e
    | some t => exact .ok t
  refine hmirrors.bind ?_
  intro t rest hread _
  exact hnext t rest (expected_shorter p (Reader.must_eq_ok hread))

theorem attempt {b : Body (Option α)} {reader : Reader (Option α)} (h : Mirrors limit b reader ts) :
    Mirrors limit (Descent.attempt b) (Reader.attempt reader) ts := by
  intro memo hmemo
  refine Act.Meets.bind ((h memo hmemo).mono ?_)
  intro outcome hagrees
  rcases outcome with u | ⟨found, s⟩
  · exact Reader.attempt_of_error hagrees
  · obtain ⟨hread, hsuffix, hsound⟩ := hagrees
    cases found with
    | none => exact ⟨Reader.attempt_of_none hread, List.suffix_refl ts, hsound⟩
    | some a => exact ⟨Reader.attempt_of_some hread, hsuffix, hsound⟩

/-- An alternative that puts nothing back. -/
theorem attempt_same {b : Body (Option Tree)} {reader : Reader (Option Tree)} {o : Outcome ts.length}
    (h : Mirrors limit b reader ts) (herased : reader ts = erase? ts o) :
    Mirrors limit (Descent.attempt b) reader ts :=
  h.attempt.congr (Reader.attempt_erase? herased).symm

theorem firstOf (ps : List (Production .optional)) (h : ∀ p ∈ ps, measure p ts < limit) :
    Mirrors limit (Descent.firstOf ps) (Reader.firstOf (ps.map expected)) ts := by
  induction ps with
  | nil => exact .ok none
  | cons p more ih =>
    refine (perform (h p List.mem_cons_self)).attempt.bind ?_
    intro found rest hread _
    cases found with
    | some t => exact .ok (some t)
    | none =>
      obtain rfl := Reader.attempt_declines hread
      exact ih fun q hq => h q (List.mem_cons_of_mem p hq)

theorem opening {p : Token → Bool} {f : Token → Body Tree} {g : Token → Reader Tree}
    (h : ∀ t rest, ts = t :: rest → Mirrors limit (f t) (g t) rest) :
    Mirrors limit (Descent.opening p f) (Reader.opening p g) ts :=
  .next (fun _ => .ok none) fun t rest hts _ => (h t rest hts).map

theorem upcoming {f : List Token → Body β} {g : Reader β} (h : Mirrors limit (f ts) g ts) :
    Mirrors limit (Descent.upcoming >>= f) g ts :=
  h

end Mirrors

/-! Declarations. -/

theorem program_mirrors (ts : List Token) : Mirrors (measure .program ts) Bodies.program Reader.program ts := by
  rw [Reader.program_eq]
  refine (Mirrors.perform (measure_lt_of_rank (by decide))).bind ?_
  intro list rest _ _
  cases list with
  | nil => exact .stop .declaration
  | cons first more => exact .ok _

theorem declarations_mirrors (ts : List Token) :
    Mirrors (measure .declarations ts) Bodies.declarations Reader.declarations ts := by
  cases ts with
  | nil => exact .upcoming ((Mirrors.ok []).congr Reader.declarations_nil)
  | cons t ts =>
    refine .upcoming (Mirrors.congr ?_ (Reader.declarations_cons t ts))
    refine .required (measure_lt_of_rank (by decide)) ?_
    intro first rest hlt
    exact (Mirrors.perform ((room_of_shorter hlt).below _)).bind fun more _ _ _ => .ok _

theorem declaration_mirrors (ts : List Token) :
    Mirrors (measure .declaration ts) Bodies.declaration Reader.declaration ts := by
  refine .upcoming ?_
  cases ts with
  | nil => exact (Mirrors.ok none).congr (Reader.declaration_untyped rfl)
  | cons type ts =>
    have hfunction : Mirrors (measure .declaration (type :: ts)) (perform .function) Reader.function (type :: ts) :=
      .perform (measure_lt_of_rank (by decide))
    by_cases htype : isTypeName type = true
    · by_cases hcall : startsCall ts = true
      · have hstarts : Reader.startsFunction (type :: ts) = true := by
          simp [Reader.startsFunction, Reader.starts, htype, hcall]
        simp only [htype, hcall, if_true]
        exact hfunction.congr (Reader.declaration_of_function hstarts)
      · simp only [htype, hcall, if_true]
        refine Mirrors.congr (.perform (p := .varDeclaration) (measure_lt_of_rank (by decide))) ?_
        exact Reader.declaration_of_variable htype (Bool.eq_false_iff.2 hcall)
    · have hnone := Reader.eat?_of_not (Bool.eq_false_iff.2 htype) ts
      by_cases hcall : startsCall (type :: ts) = true
      · have hstarts : Reader.startsFunction (type :: ts) = true := by
          simp [Reader.startsFunction, Reader.starts, htype, hcall]
        simp only [htype, hcall, if_true]
        exact hfunction.congr (Reader.declaration_of_function hstarts)
      · simp only [htype, hcall]
        refine (Mirrors.ok none).congr ?_
        rw [Reader.declaration_untyped hnone, if_neg hcall]
        rfl

theorem varDeclaration_mirrors (ts : List Token) :
    Mirrors (measure .varDeclaration ts) Bodies.varDeclaration Reader.varDeclaration ts := by
  refine Mirrors.attempt_same ?_ rfl
  rw [Reader.varDeclaration_eq]
  refine .opening ?_
  rintro type rest rfl
  exact (Mirrors.perform ((room_tail type rest).below _)).bind fun inits _ _ _ => .ok _

theorem localDeclaration_mirrors (ts : List Token) :
    Mirrors (measure .localDeclaration ts) Bodies.localDeclaration Reader.localDeclaration ts := by
  refine Mirrors.attempt_same ?_ rfl
  rw [Reader.localDeclaration_eq]
  refine .next ?_ ?_
  · intro _
    rw [Reader.varDeclaration_eq]
    refine .opening ?_
    rintro type rest rfl
    exact (Mirrors.perform ((room_tail type rest).below _)).bind fun inits _ _ _ => .ok _
  · rintro static rest rfl _
    refine Mirrors.map ?_
    refine .expect ?_
    rintro type more rfl _
    have hroom := (room_tail (p := .localDeclaration) static (type :: more)).mono (Nat.le_succ more.length)
    exact (Mirrors.perform (hroom.below _)).bind fun inits _ _ _ => .ok _

theorem localDeclarations_mirrors (ts : List Token) :
    Mirrors (measure .localDeclarations ts) Bodies.localDeclarations Reader.localDeclarations ts := by
  rw [Reader.localDeclarations_eq]
  refine (Mirrors.perform (p := .localDeclaration) (measure_lt_of_rank (by decide))).bind ?_
  intro found rest hread _
  cases found with
  | none => exact .ok []
  | some first =>
    have hroom := room_of_shorter (p := .localDeclarations) (expected_shorter .localDeclaration hread)
    exact (Mirrors.perform (hroom.below _)).bind fun more _ _ _ => .ok _

theorem declarators_mirrors (ts : List Token) :
    Mirrors (measure .declarators ts) Bodies.declarators Reader.declarators ts := by
  rw [Reader.declarators_eq]
  refine (Mirrors.perform (p := .declarator) (measure_lt_of_rank (by decide))).bind ?_
  intro first rest _ hle
  refine .next (fun _ => .expect fun _ _ _ _ => .ok _) ?_
  rintro comma more rfl _
  exact (Mirrors.perform ((room_of_shorter hle).below _)).bind fun more _ _ _ => .ok _

theorem declarator_mirrors (ts : List Token) :
    Mirrors (measure .declarator ts) Bodies.declarator Reader.declarator ts := by
  rw [Reader.declarator_eq]
  refine (Mirrors.perform (p := .declaredName) (measure_lt_of_rank (by decide))).bind ?_
  intro name rest _ hle
  refine .next (fun _ => .ok _) ?_
  rintro colon more rfl _
  exact .required (p := .chain .or) ((room_of_shorter hle).below _) fun init _ _ => .ok _

theorem declaredName_mirrors (ts : List Token) :
    Mirrors (measure .declaredName ts) Bodies.declaredName Reader.declaredName ts := by
  rw [Reader.declaredName_eq]
  refine .expect ?_
  intro name rest _ _
  refine .next (fun _ => .ok _) ?_
  intro bracket more _ _
  exact .expect fun length _ _ _ => .expect fun _ _ _ _ => .ok _

theorem functionTail_mirrors {result : List Tree} {name : Token} (h : Room limit ts) :
    Mirrors limit (Bodies.functionTail result name) (do
      let parms ← Reader.parameters
      let _ ← Reader.symbol ")"
      let body ← Reader.must (.text "\x7b") Reader.block
      return .marked .funDecl name (result ++ [parms, body])) ts := by
  refine (Mirrors.perform (p := .parameters) (h.below _)).bind ?_
  intro parms rest _ hle
  refine .expect ?_
  rintro close more rfl _
  have hroom := h.mono (Nat.le_trans (Nat.le_succ more.length) hle)
  exact .required (p := .block) (hroom.below _) fun body _ _ => .ok _

theorem functionBehind_mirrors {result : List Tree}
    (h : ∀ name paren rest, ts = name :: paren :: rest → Room limit rest) :
    Mirrors limit (Bodies.functionBehind result) (Reader.functionBehind result) ts := by
  refine .next (fun _ => .ok none) ?_
  rintro name rest rfl _
  refine .next (fun _ => .ok none) ?_
  rintro paren rest rfl _
  exact (functionTail_mirrors (h name paren rest rfl)).map

theorem function_mirrors (ts : List Token) :
    Mirrors (measure .function ts) Bodies.function Reader.function ts := by
  rw [Reader.function_eq]
  refine Mirrors.attempt (.next ?_ ?_)
  · intro _
    refine functionBehind_mirrors ?_
    rintro name paren rest rfl
    exact room_of_shorter (Nat.lt_succ_of_lt (Nat.lt_succ_self _))
  · rintro type rest rfl _
    refine functionBehind_mirrors ?_
    rintro name paren rest rfl
    exact room_of_shorter (Nat.lt_succ_of_lt (Nat.lt_succ_of_lt (Nat.lt_succ_self _)))

/-! Parameters. -/

theorem parameters_mirrors (ts : List Token) :
    Mirrors (measure .parameters ts) Bodies.parameters Reader.parameters ts := by
  refine .upcoming ?_
  by_cases hclose : Reader.starts (·.isSymbol ")") ts = true
  · cases ts with
    | nil => cases hclose
    | cons close ts =>
      change close.isSymbol ")" = true at hclose
      simp only [List.head?_cons, Option.any_some, hclose]
      exact (Mirrors.ok _).congr (Reader.parameters_of_close hclose)
  · rw [Bool.not_eq_true] at hclose
    have hany : ts.head?.any (·.isSymbol ")") = false := hclose
    simp only [hany]
    refine Mirrors.congr ?_ (Reader.parameters_of_not_close (Reader.eat?_of_starts hclose))
    exact (Mirrors.perform (p := .parameterGroups) (measure_lt_of_rank (by decide))).bind fun _ _ _ _ => .ok _

theorem parameterGroups_mirrors (ts : List Token) :
    Mirrors (measure .parameterGroups ts) Bodies.parameterGroups Reader.parameterGroups ts := by
  rw [Reader.parameterGroups_eq]
  refine (Mirrors.perform (p := .parameterGroup) (measure_lt_of_rank (by decide))).bind ?_
  intro first rest _ hle
  refine .next (fun _ => .ok _) ?_
  rintro semicolon more rfl _
  exact (Mirrors.perform ((room_of_shorter hle).below _)).bind fun more _ _ _ => .ok _

theorem parameterGroup_mirrors (ts : List Token) :
    Mirrors (measure .parameterGroup ts) Bodies.parameterGroup Reader.parameterGroup ts := by
  rw [Reader.parameterGroup_eq]
  refine .expect ?_
  rintro type rest rfl _
  exact (Mirrors.perform ((room_tail type rest).below _)).bind fun names _ _ _ => .ok _

theorem parameter_mirrors (limit : Nat) (ts : List Token) :
    Mirrors limit Bodies.parameter Reader.parameter ts := by
  rw [Reader.parameter_eq]
  refine .expect ?_
  intro name rest _ _
  refine .next (fun _ => .ok _) ?_
  intro bracket more _ _
  exact .expect fun _ _ _ _ => .ok _

theorem parameterList_mirrors (ts : List Token) :
    Mirrors (measure .parameterList ts) Bodies.parameterList Reader.parameterList ts := by
  rw [Reader.parameterList_eq]
  refine (parameter_mirrors _ ts).bind ?_
  intro first rest _ hle
  refine .next (fun _ => .ok _) ?_
  rintro comma more rfl _
  exact (Mirrors.perform ((room_of_shorter hle).below _)).bind fun more _ _ _ => .ok _

/-! Statements. -/

theorem statement_mirrors (ts : List Token) :
    Mirrors (measure .statement ts) Bodies.statement Reader.statement ts := by
  rw [Reader.statement_eq_firstOf]
  refine .firstOf _ ?_
  intro p hp
  simp only [List.mem_cons, List.not_mem_nil, or_false] at hp
  rcases hp with rfl | rfl | rfl | rfl | rfl | rfl | rfl <;> exact measure_lt_of_rank (by decide)

theorem statements_mirrors (ts : List Token) :
    Mirrors (measure .statements ts) Bodies.statements Reader.statements ts := by
  cases ts with
  | nil =>
    have hstop : Mirrors (measure .statements []) Bodies.statements
        (Reader.next? (·.isSymbol "\x7d") >>= fun _ => Reader.fail (.text "\x7d")) [] := by
      refine .next (fun _ => .upcoming (.stop _)) ?_
      intro t rest h
      cases h
    exact hstop.congr Reader.statements_nil
  | cons first ts =>
    refine Mirrors.congr ?_ (Reader.statements_cons first ts)
    refine .next (fun _ => .upcoming ?_) fun _ _ _ _ => .ok []
    refine .required (p := .statement) (measure_lt_of_rank (by decide)) ?_
    intro next rest hlt
    exact (Mirrors.perform ((room_of_shorter hlt).below _)).bind fun more _ _ _ => .ok _

theorem block_mirrors (ts : List Token) : Mirrors (measure .block ts) Bodies.block Reader.block ts := by
  rw [Reader.block_eq]
  refine .opening ?_
  rintro brace rest rfl
  have hroom := room_tail (p := .block) brace rest
  rw [Reader.blockTail_eq]
  refine (Mirrors.perform (p := .localDeclarations) (hroom.below _)).bind ?_
  intro decls behind _ hle
  exact (Mirrors.perform (p := .statements) ((hroom.mono hle).below _)).bind fun stmts _ _ _ => .ok _

theorem elseBranch_mirrors (h : Room limit ts) : Mirrors limit Bodies.elseBranch Reader.elseBranch ts := by
  rw [Reader.elseBranch_eq]
  refine .next (fun _ => .ok []) ?_
  rintro word rest rfl _
  exact .required (p := .statement) ((h.mono (Nat.le_succ _)).below _) fun no _ _ => .ok _

theorem ifTail_mirrors {word : Token} (h : Room limit ts) :
    Mirrors limit (Bodies.ifTail word) (Reader.ifRest word) ts := by
  refine .required (p := .chain .or) (h.below _) ?_
  intro condition rest hlt
  refine .expect ?_
  rintro _ rest rfl _
  have hroom : Room limit rest := h.mono (Nat.le_of_succ_le (Nat.le_of_lt hlt))
  refine .required (p := .statement) (hroom.below _) ?_
  intro yes behind hyes
  exact (elseBranch_mirrors (hroom.mono (Nat.le_of_lt hyes))).bind fun no _ _ _ => .ok _

theorem whileTail_mirrors {word : Token} (h : Room limit ts) :
    Mirrors limit (Bodies.whileTail word) (Reader.whileRest word) ts := by
  refine .required (p := .chain .or) (h.below _) ?_
  intro condition rest hlt
  refine .expect ?_
  rintro _ rest rfl _
  exact .required (p := .statement) ((h.mono (Nat.le_of_succ_le (Nat.le_of_lt hlt))).below _) fun _ _ _ => .ok _

theorem rangeStep_mirrors (h : Room limit ts) : Mirrors limit Bodies.rangeStep Reader.rangeStep ts := by
  rw [Reader.rangeStep_eq]
  refine .next (fun _ => .ok []) ?_
  rintro word rest rfl _
  exact .required (p := .chain .or) ((h.mono (Nat.le_succ _)).below _) fun step _ _ => .ok _

theorem rangeEnd_mirrors (h : Room limit ts) : Mirrors limit Bodies.rangeEnd Reader.rangeEnd ts := by
  rw [Reader.rangeEnd_eq]
  refine .next (fun _ => .ok []) ?_
  rintro word rest rfl _
  have hroom : Room limit rest := h.mono (Nat.le_succ _)
  refine .required (p := .chain .or) (hroom.below _) ?_
  intro stop behind hlt
  exact (rangeStep_mirrors (hroom.mono (Nat.le_of_lt hlt))).bind fun step _ _ _ => .ok _

theorem range_mirrors (h : Room limit ts) : Mirrors limit Bodies.range Reader.range ts := by
  rw [Reader.range_eq]
  refine .required (p := .chain .or) (h.below _) ?_
  intro start rest hlt
  exact (rangeEnd_mirrors (h.mono (Nat.le_of_lt hlt))).bind fun more _ _ _ => .ok _

theorem forTail_mirrors {word : Token} (h : Room limit ts) :
    Mirrors limit (Bodies.forTail word) (Reader.forRest word) ts := by
  refine .expect ?_
  rintro name rest rfl _
  refine .expect ?_
  rintro equals rest rfl _
  have hroom : Room limit rest := h.mono (Nat.le_succ_of_le (Nat.le_succ _))
  refine (range_mirrors hroom).bind ?_
  intro bounds behind _ hle
  refine .expect ?_
  rintro _ behind rfl _
  exact .required (p := .statement) ((hroom.mono (Nat.le_of_succ_le hle)).below _) fun body _ _ => .ok _

theorem returnTail_mirrors {word : Token} (h : Room limit ts) :
    Mirrors limit (Bodies.returnTail word) (Reader.returnTail word) ts := by
  rw [Reader.returnTail_eq]
  refine .next (fun _ => ?_) fun _ _ _ _ => .ok _
  exact .required (p := .expression) (h.below _) fun value _ _ => .expect fun _ _ _ _ => .ok _

theorem breakTail_mirrors {word : Token} : Mirrors limit (Bodies.breakTail word) (Reader.breakRest word) ts :=
  .expect fun _ _ _ _ => .ok _

/-- A keyword statement, by its part behind the keyword. -/
theorem keywordStatement_mirrors {p : Production .optional} {word : String} {f : Token → Body Tree}
    {g : Token → Reader Tree}
    (hstatement : ∀ t ts, t.isKeyword word = true → Reader.statement (t :: ts) = (some <$> g t) ts)
    (h : ∀ t {limit ts}, Room limit ts → Mirrors limit (f t) (g t) ts) (ts : List Token) :
    Mirrors (measure p ts) (opening (·.isKeyword word) f) (Reader.keywordStatement word) ts := by
  rw [Reader.keywordStatement, Reader.onlyIf_eq_opening hstatement]
  refine .opening ?_
  rintro t rest rfl
  exact h t (room_tail t rest)

theorem expressionStatement_mirrors (ts : List Token) :
    Mirrors (measure .expressionStatement ts) Bodies.expressionStatement Reader.expressionStatement ts := by
  rw [Reader.expressionStatement_eq]
  refine .next (fun _ => ?_) fun _ _ _ _ => .ok _
  refine (Mirrors.perform (p := .expression) (measure_lt_of_rank (by decide))).bind ?_
  intro found rest _ _
  cases found with
  | none => exact .ok none
  | some value =>
    dsimp only
    rw [map_bind]
    exact .expect fun semicolon _ _ _ => .ok _

/-! Expressions. -/

theorem expression_mirrors (ts : List Token) :
    Mirrors (measure .expression ts) Bodies.expression Reader.expression ts := by
  rw [Reader.expression_eq_firstOf]
  refine .firstOf [.assignment, .chain .or] ?_
  intro p hp
  simp only [List.mem_cons, List.not_mem_nil, or_false] at hp
  rcases hp with rfl | rfl <;> exact measure_lt_of_rank (by decide)

theorem assignment_mirrors (ts : List Token) :
    Mirrors (measure .assignment ts) Bodies.assignment Reader.assignment ts := by
  refine Mirrors.attempt ?_
  refine (Mirrors.perform (p := .location) (measure_lt_of_rank (by decide))).bind ?_
  intro found rest _ hle
  cases found with
  | none => exact .ok none
  | some target =>
    refine .next (fun _ => .next (fun _ => .ok none) fun _ _ _ _ => .ok _) ?_
    rintro op behind rfl _
    exact .required (p := .expression) ((room_of_shorter hle).below _) fun value _ _ => .ok _

theorem rank_operand_lt (level : Level) : (Bodies.operand level).rank < (Production.chain level).rank := by
  cases level <;> decide

theorem chain_mirrors (level : Level) (ts : List Token) :
    Mirrors (measure (.chain level) ts) (Bodies.chain level) (Reader.chain level) ts := by
  refine Mirrors.attempt_same ?_ rfl
  rw [Reader.chain_eq, ← expected_operand]
  refine (Mirrors.perform (measure_lt_of_rank (rank_operand_lt level))).bind ?_
  intro found rest hread _
  cases found with
  | none => exact .ok none
  | some first =>
    have hroom := room_of_shorter (p := .chain level) (expected_shorter _ hread)
    dsimp only
    rw [Reader.chainRest, map_bind]
    exact (Mirrors.perform (p := .links level) (hroom.below _)).bind fun more _ _ _ => .ok _

theorem links_mirrors (level : Level) (ts : List Token) :
    Mirrors (measure (.links level) ts) (Bodies.links level) (Reader.links level) ts := by
  rw [Reader.links_eq, ← expected_operand]
  refine .next (fun _ => .ok []) ?_
  rintro op rest rfl _
  have hroom := room_tail (p := .links level) op rest
  refine .required (hroom.below _) ?_
  intro next behind hlt
  exact (Mirrors.perform (p := .links level) ((hroom.mono (Nat.le_of_lt hlt)).below _)).bind fun more _ _ _ => .ok _

theorem negation_mirrors (ts : List Token) :
    Mirrors (measure .negation ts) Bodies.negation Reader.negation ts := by
  rw [Reader.negation_eq]
  refine .next (fun _ => .perform (p := .comparison) (measure_lt_of_rank (by decide))) ?_
  rintro op rest rfl _
  dsimp only
  rw [map_bind]
  exact .required (p := .negation) ((room_tail op rest).below _) fun inner _ _ => .ok _

theorem comparison_mirrors (ts : List Token) :
    Mirrors (measure .comparison ts) Bodies.comparison Reader.comparison ts := by
  refine Mirrors.attempt_same ?_ rfl
  rw [Reader.comparison_eq]
  refine (Mirrors.perform (p := .chain .minMax) (measure_lt_of_rank (by decide))).bind ?_
  intro found rest _ hle
  cases found with
  | none => exact .ok none
  | some left =>
    dsimp only
    rw [Reader.comparisonRest, map_bind]
    refine .next (fun _ => .ok _) ?_
    rintro op behind rfl _
    dsimp only
    rw [map_bind]
    exact .required (p := .chain .minMax) ((room_of_shorter hle).below _) fun right _ _ => .ok _

theorem unary_mirrors (ts : List Token) : Mirrors (measure .unary ts) Bodies.unary Reader.unary ts := by
  rw [Reader.unary_eq]
  refine .next (fun _ => .perform (p := .factor) (measure_lt_of_rank (by decide))) ?_
  rintro op rest rfl _
  dsimp only
  rw [map_bind]
  exact .required (p := .unary) ((room_tail op rest).below _) fun inner _ _ => .ok _

theorem factor_mirrors (ts : List Token) : Mirrors (measure .factor ts) Bodies.factor Reader.factor ts := by
  rw [Reader.factor_eq_firstOf]
  refine .firstOf [.paren, .call, .constant, .location] ?_
  intro p hp
  simp only [List.mem_cons, List.not_mem_nil, or_false] at hp
  rcases hp with rfl | rfl | rfl | rfl <;> exact measure_lt_of_rank (by decide)

theorem paren_mirrors (ts : List Token) : Mirrors (measure .paren ts) Bodies.paren Reader.paren ts := by
  rw [Reader.paren_eq]
  refine .opening ?_
  rintro paren rest rfl
  refine .required (p := .expression) ((room_tail paren rest).below _) ?_
  exact fun inner _ _ => .expect fun _ _ _ _ => .ok _

theorem arguments_mirrors (h : Room limit ts) : Mirrors limit Bodies.arguments Reader.arguments ts := by
  rw [Reader.arguments_eq]
  exact .next (fun _ => .perform (p := .argumentList) (h.below _)) fun _ _ _ _ => .ok []

theorem call_mirrors (ts : List Token) : Mirrors (measure .call ts) Bodies.call Reader.call ts := by
  refine .upcoming ?_
  by_cases hcall : startsCall ts = true
  · simp only [hcall]
    refine Mirrors.congr (.map ?_) (Reader.call_takes hcall)
    refine .expect ?_
    rintro name rest rfl _
    refine .expect ?_
    rintro paren rest rfl _
    have hroom : Room (measure .call (name :: paren :: rest)) rest :=
      room_of_shorter (Nat.lt_succ_of_lt (Nat.lt_succ_self _))
    exact (arguments_mirrors hroom).bind fun args _ _ _ => .ok _
  · rw [Bool.not_eq_true] at hcall
    simp only [hcall]
    exact (Mirrors.ok none).congr (Reader.onlyIf_neg hcall _)

theorem argumentList_mirrors (ts : List Token) :
    Mirrors (measure .argumentList ts) Bodies.argumentList Reader.argumentList ts := by
  rw [Reader.argumentList_eq]
  refine .required (p := .expression) (measure_lt_of_rank (by decide)) ?_
  intro first rest hlt
  refine .next (fun _ => .expect fun _ _ _ _ => .ok _) ?_
  rintro comma more rfl _
  exact (Mirrors.perform ((room_of_shorter (Nat.lt_of_succ_lt hlt)).below _)).bind fun more _ _ _ => .ok _

theorem constant_mirrors (ts : List Token) :
    Mirrors (measure .constant ts) Bodies.constant Reader.constant ts := by
  rw [Reader.constant_eq]
  exact .opening fun c rest _ => .ok _

theorem locationTail_mirrors {name : Token} (h : Room limit ts) :
    Mirrors limit (Bodies.locationTail name) (Reader.locationRest name) ts := by
  refine .next (fun _ => .ok _) ?_
  rintro bracket rest rfl _
  refine .required (p := .expression) ((h.mono (Nat.le_succ _)).below _) ?_
  exact fun index _ _ => .expect fun _ _ _ _ => .ok _

/-- What is left in the memo is what was read. -/
theorem freshLocation_mirrors (ts : List Token) :
    Mirrors (measure .location ts) (Bodies.freshLocation ts) Reader.location ts := by
  rw [Reader.location_eq]
  refine .next (fun _ => .ok none) ?_
  rintro name rest rfl hname
  refine .map ?_
  rw [← bind_pure (Reader.locationRest name)]
  refine (locationTail_mirrors (room_tail name rest)).bind_suffix ?_
  intro tree behind hread hsuffix
  have hlocation : Reader.location (name :: rest) = .ok (some tree, behind) := by
    rw [Reader.location_takes hname, Reader.map_apply, hread]
    rfl
  exact fun _ _ => ⟨rfl, List.suffix_refl behind, hlocation, hsuffix.trans (List.suffix_cons name rest)⟩

theorem location_mirrors (ts : List Token) :
    Mirrors (measure .location ts) Bodies.location Reader.location ts := by
  intro memo hmemo
  cases memo with
  | none => exact freshLocation_mirrors ts none hmemo
  | some note =>
    by_cases hstart : note.start = ts
    · -- the stream jumps behind the remembered location, which no call is needed for
      subst hstart
      have hhit : Bodies.location ⟨note.start, some note⟩ = .done (some note.tree) ⟨note.behind, none⟩ := by
        change Act.bind (remembered _) _ = _
        simp only [remembered, if_true]
        rfl
      rw [hhit]
      exact ⟨hmemo.1, hmemo.2, trivial⟩
    · have hmiss : Bodies.location ⟨ts, some note⟩ = Bodies.freshLocation ts ⟨ts, some note⟩ := by
        change Act.bind (remembered _) _ = _
        simp only [remembered, hstart, if_false]
        rfl
      rw [hmiss]
      exact freshLocation_mirrors ts (some note) hmemo

theorem body_mirrors {k : Shape} (p : Production k) (ts : List Token) :
    Mirrors (measure p ts) (body p) (expected p) ts := by
  cases p with
  | program => exact program_mirrors ts
  | declarations => exact declarations_mirrors ts
  | declaration => exact declaration_mirrors ts
  | varDeclaration => exact varDeclaration_mirrors ts
  | localDeclaration => exact localDeclaration_mirrors ts
  | localDeclarations => exact localDeclarations_mirrors ts
  | declarators => exact declarators_mirrors ts
  | declarator => exact declarator_mirrors ts
  | declaredName => exact declaredName_mirrors ts
  | function => exact function_mirrors ts
  | parameters => exact parameters_mirrors ts
  | parameterGroups => exact parameterGroups_mirrors ts
  | parameterGroup => exact parameterGroup_mirrors ts
  | parameterList => exact parameterList_mirrors ts
  | statement => exact statement_mirrors ts
  | statements => exact statements_mirrors ts
  | block => exact block_mirrors ts
  | ifStatement =>
    exact keywordStatement_mirrors (fun _ ts h => Reader.statement_if h ts) (fun _ _ _ => ifTail_mirrors) ts
  | whileStatement =>
    exact keywordStatement_mirrors (fun _ ts h => Reader.statement_while h ts) (fun _ _ _ => whileTail_mirrors) ts
  | forStatement =>
    exact keywordStatement_mirrors (fun _ ts h => Reader.statement_for h ts) (fun _ _ _ => forTail_mirrors) ts
  | returnStatement =>
    exact keywordStatement_mirrors (fun _ ts h => Reader.statement_return h ts) (fun _ _ _ => returnTail_mirrors) ts
  | breakStatement =>
    exact keywordStatement_mirrors (fun _ ts h => Reader.statement_break h ts) (fun _ _ _ _ => breakTail_mirrors) ts
  | expressionStatement => exact expressionStatement_mirrors ts
  | expression => exact expression_mirrors ts
  | assignment => exact assignment_mirrors ts
  | chain level => exact chain_mirrors level ts
  | links level => exact links_mirrors level ts
  | negation => exact negation_mirrors ts
  | comparison => exact comparison_mirrors ts
  | unary => exact unary_mirrors ts
  | factor => exact factor_mirrors ts
  | paren => exact paren_mirrors ts
  | call => exact call_mirrors ts
  | argumentList => exact argumentList_mirrors ts
  | constant => exact constant_mirrors ts
  | location => exact location_mirrors ts

end StackCompiler.Grammar.Descent
