import RegexAutomaton.Graph
import RegexAutomaton.Failure

namespace RegexAutomaton

/-- One step worth telling, with what it was applied to and what it made. -/
inductive Event where
  | parsing (expression : String)
  | compiled (expression : String) (states : Nat)
  | concatenated (c : Char) (entry exit : Nat)
  | branched (origin entry : Nat)
  | repeated (c : Char) (source target : Nat)
  | fragmentRepeated (fragment : Fragment)
  | spliced (states : Nat) (entry exit : Nat)
  | deleting (q : Nat)
  | reduced (containsEpsilon : Bool) (selfLoops : Option (List Nat))
deriving DecidableEq, Repr

/-- The events of a run beside its outcome. Those before a failure are kept, so a failed run is
explained as far as it went. -/
structure Traced (α : Type) where
  events : List Event
  outcome : Except Failure α

namespace Traced

instance : Monad Traced where
  pure value := ⟨[], .ok value⟩
  bind first next :=
    match first.outcome with
    | .ok value =>
        let second := next value
        ⟨first.events ++ second.events, second.outcome⟩
    | .error failure => ⟨first.events, .error failure⟩

instance : MonadExceptOf Failure Traced where
  throw failure := ⟨[], .error failure⟩
  tryCatch body handle :=
    match body.outcome with
    | .ok _ => body
    | .error failure =>
        let rescue := handle failure
        ⟨body.events ++ rescue.events, rescue.outcome⟩

instance : MonadLift (Except Failure) Traced where
  monadLift outcome := ⟨[], outcome⟩

def emit (event : Event) : Traced Unit :=
  ⟨[event], .ok ()⟩

variable {α β : Type}

@[simp] theorem outcome_pure (value : α) : (pure value : Traced α).outcome = .ok value := rfl

@[simp] theorem outcome_bind (first : Traced α) (next : α → Traced β) :
    (first >>= next).outcome = first.outcome >>= fun value => (next value).outcome := by
  change (match first.outcome with
    | .ok value => Traced.mk (first.events ++ (next value).events) (next value).outcome
    | .error failure => Traced.mk first.events (.error failure)).outcome = _
  cases first.outcome <;> rfl

@[simp] theorem outcome_throw (failure : Failure) :
    (throw failure : Traced α).outcome = .error failure := rfl

@[simp] theorem outcome_lift (outcome : Except Failure α) :
    (monadLift outcome : Traced α).outcome = outcome := rfl

@[simp] theorem outcome_emit (event : Event) : (emit event).outcome = .ok () := rfl

end Traced

namespace Event

inductive Level where
  | debug
  | trace
deriving DecidableEq, Repr

def Level.text : Level → String
  | debug => "DEBUG"
  | trace => "TRACE"

def level : Event → Level
  | parsing .. | compiled .. | reduced .. => .debug
  | _ => .trace

/-- The channel on which an event is reported. -/
def channel : Event → String
  | parsing .. | compiled .. => "renfa_syntax::parsing"
  | reduced .. => "renfa_automata::reduce"
  | _ => "renfa_automata::nfa"

def stateText (q : Nat) : String :=
  "StateId(" ++ toString q ++ ")"

def statesText : Option (List Nat) → String
  | none => "None"
  | some states => "Some([" ++ ", ".intercalate (states.map stateText) ++ "])"

def message : Event → String
  | parsing expression => "parsing `" ++ expression ++ "`"
  | compiled expression states =>
      "`" ++ expression ++ "` compiled into " ++ toString states ++ " states"
  | concatenated c entry exit =>
      "concatenate `" ++ String.singleton c ++ "`: " ++ stateText entry ++ " -> " ++ stateText exit
  | branched origin entry => "branch: " ++ stateText origin ++ " -> " ++ stateText entry
  | repeated c source target =>
      "repeat `" ++ String.singleton c ++ "`: " ++ stateText source ++
        ", loop on " ++ stateText target
  | fragmentRepeated fragment =>
      "repeat fragment " ++ stateText fragment.entry ++ " -> " ++ stateText fragment.exit ++
        " (" ++ toString fragment.edges.length ++ " edges)"
  | spliced states entry exit =>
      "splice " ++ toString states ++ " states: " ++ stateText entry ++ " -> " ++ stateText exit
  | deleting q => "delete " ++ stateText q
  | reduced containsEpsilon selfLoops =>
      "reduction: epsilon = " ++ (if containsEpsilon then "true" else "false") ++
        ", self loops = " ++ statesText selfLoops

end Event

end RegexAutomaton
