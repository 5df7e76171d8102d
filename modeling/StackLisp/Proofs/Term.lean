import StackLisp.Code.Assembly
import StackLisp.Compiler.Shape
import StackLisp.Value.Basic

/-!
# Terms and the instructions that evaluate them

A `Term` is a form after macro expansion, with its parts told apart: what the compiler turns into
instructions. A function literal is represented by its template, the closure without environment
that was compiled for it.

- `Emits pool terms program`: the program pushes the values of the terms, one after the other;
- `EmitsBody pool body program`: the program is the whole code of a function with that body;
- `ClosureOf.Implements c body`: the closure was assembled from such a program;
- `ClosureOf.Coded G c`: so was the closure, and so were all function literals inside it, and `G`
  holds of every value that the code can push as it stands.
-/

namespace StackLisp

/-- An expanded form. -/
inductive Term where
  /-- A value that stands for itself or was quoted. -/
  | constant (v : Value)
  /-- A symbol, looked up when the term is evaluated. -/
  | lookup (s : Symbol)
  | conditional (test consequent alternative : Term)
  | assignment (way : Assignment) (target : Symbol) (value : Term)
  /-- A function literal, by the closure that was compiled for it. -/
  | function (template : Closure)
  | call (callee : Term) (args : List Term)

/-- `G` holds of the constants of a term, `T` of the templates of its function literals. -/
inductive Term.All (G : Value → Prop) (T : Closure → Prop) : Term → Prop
  | constant {v : Value} : G v → All G T (.constant v)
  | lookup {s : Symbol} : All G T (.lookup s)
  | conditional {test consequent alternative : Term} : All G T test → All G T consequent →
      All G T alternative → All G T (.conditional test consequent alternative)
  | assignment {way : Assignment} {target : Symbol} {value : Term} : All G T value →
      All G T (.assignment way target value)
  | function {template : Closure} : template.env = none → T template →
      All G T (.function template)
  | call {callee : Term} {args : List Term} : All G T callee → (∀ t ∈ args, All G T t) →
      All G T (.call callee args)

/-- The program pushes the values of the terms one after the other, with the first at the bottom.
A conditional keeps its two labels for itself. -/
inductive Emits (pool : Array Value) : List Term → List Instruction → Prop
  | nil : Emits pool [] []
  | constant {i : UInt16} {v : Value} {rest : List Term} {after : List Instruction} :
      pool[i.toNat]? = some v → Emits pool rest after →
      Emits pool (.constant v :: rest) (.const i :: after)
  | lookup {i : UInt16} {s : Symbol} {rest : List Term} {after : List Instruction} :
      pool[i.toNat]? = some (.symbol s) → Emits pool rest after →
      Emits pool (.lookup s :: rest) (.const i :: .load :: after)
  | conditional {test consequent alternative : Term} {rest : List Term} {otherwise done : UInt16}
      {a b c after : List Instruction} :
      Emits pool [test] a → Emits pool [consequent] b → Emits pool [alternative] c →
      Emits pool rest after →
      Emits pool (.conditional test consequent alternative :: rest)
        (a ++ .jumpIfNot otherwise :: (b ++ .jump done :: .label otherwise ::
          (c ++ .label done :: after)))
  | assignment {i : UInt16} {way : Assignment} {target : Symbol} {value : Term}
      {rest : List Term} {a after : List Instruction} :
      pool[i.toNat]? = some (.symbol target) → Emits pool [value] a → Emits pool rest after →
      Emits pool (.assignment way target value :: rest)
        (.const i :: (a ++ way.instruction :: after))
  | function {i : UInt16} {template : Closure} {rest : List Term} {after : List Instruction} :
      pool[i.toNat]? = some (.closure template) → Emits pool rest after →
      Emits pool (.function template :: rest) (.const i :: .closure :: after)
  | call {n : UInt16} {callee : Term} {args rest : List Term} {a after : List Instruction} :
      Emits pool (callee :: args) a → n.toNat = args.length → Emits pool rest after →
      Emits pool (.call callee args :: rest) (a ++ .call n :: after)

/-- The program evaluates the terms in order, drops the value of each but the last, and returns
that one. -/
inductive EmitsBody (pool : Array Value) : List Term → List Instruction → Prop
  | last {t : Term} {a : List Instruction} : Emits pool [t] a → EmitsBody pool [t] (a ++ [.ret])
  | cons {t : Term} {rest : List Term} {a b : List Instruction} : Emits pool [t] a →
      EmitsBody pool rest b → EmitsBody pool (t :: rest) (a ++ .pop :: b)

/-- The labels that a program defines, in order. -/
def labelIds (program : List Instruction) : List UInt16 :=
  program.filterMap fun
    | .label id => some id
    | _ => none

/-- How many constants are parameters. -/
def ClosureOf.parameters (c : Closure) : Nat :=
  c.positional + if c.variadic then 1 else 0

/-- The closure was assembled from the code of a body; its parameters come first among its
constants. -/
structure ClosureOf.Implements (c : Closure) (body : List Term) : Prop where
  /-- The code evaluates the body, and no label of it is defined twice. -/
  code : ∃ program, Assembly.assemble program = .ok c.code ∧ EmitsBody c.constants body program ∧
    (labelIds program).Nodup
  /-- Arguments are bound to symbols. -/
  parameters : ∀ i < c.parameters, ∃ s, c.constants[i]? = some (.symbol s)

/-- The closure and the function literals inside it were assembled from code for terms, and `G`
holds of every constant that the code pushes as a value. -/
inductive ClosureOf.Coded (G : Value → Prop) : Closure → Prop
  | intro {c : Closure} {body : List Term} : c.Implements body →
      (∀ t ∈ body, Term.All G (Coded G) t) → Coded G c

/-! ## Growing pools -/

/-- The places of a pool keep their constants in one that extends it. -/
def Extended (pool more : Array Value) : Prop :=
  ∀ (i : Nat) (v : Value), pool[i]? = some v → more[i]? = some v

theorem Extended.refl (pool : Array Value) : Extended pool pool :=
  fun _ _ h => h

theorem Extended.trans {a b c : Array Value} (hab : Extended a b) (hbc : Extended b c) :
    Extended a c :=
  fun i v h => hbc i v (hab i v h)

/-- Code stays valid when constants are added. -/
theorem Emits.mono {pool more : Array Value} {terms : List Term} {program : List Instruction}
    (h : Emits pool terms program) (hp : Extended pool more) : Emits more terms program := by
  induction h with
  | nil => exact .nil
  | constant hv _ ih => exact .constant (hp _ _ hv) ih
  | lookup hs _ ih => exact .lookup (hp _ _ hs) ih
  | conditional _ _ _ _ iha ihb ihc ih => exact .conditional iha ihb ihc ih
  | assignment hs _ _ iha ih => exact .assignment (hp _ _ hs) iha ih
  | function hd _ ih => exact .function (hp _ _ hd) ih
  | call _ hn _ iha ih => exact .call iha hn ih

/-- Two programs in a row push the values of both lists of terms. -/
theorem Emits.append {pool : Array Value} {ts us : List Term} {a b : List Instruction}
    (ha : Emits pool ts a) (hb : Emits pool us b) : Emits pool (ts ++ us) (a ++ b) := by
  induction ha with
  | nil => exact hb
  | constant hv _ ih => exact .constant hv ih
  | lookup hs _ ih => exact .lookup hs ih
  | conditional ha hb hc _ _ _ _ ih => simpa using .conditional ha hb hc ih
  | assignment hs ha _ _ ih => simpa using .assignment hs ha ih
  | function hd _ ih => exact .function hd ih
  | call ha hn _ _ ih => simpa using .call ha hn ih

/-- Weaker demands on the constants are met by the same code. -/
theorem ClosureOf.Coded.mono {G H : Value → Prop} (h : ∀ v, G v → H v) {c : Closure}
    (hc : c.Coded G) : c.Coded H := by
  -- the second motive is about the terms of the bodies, which hold the inner templates
  refine @ClosureOf.Coded.rec G (fun c _ => c.Coded H) (fun t _ => t.All H (Coded H))
    (fun hi _ ih => .intro hi ih) ?_ ?_ ?_ ?_ ?_ ?_ c hc
  · exact fun hv => .constant (h _ hv)
  · exact .lookup
  · exact fun _ _ _ iha ihb ihc => .conditional iha ihb ihc
  · exact fun _ ih => .assignment ih
  · exact fun he _ ih => .function he ih
  · exact fun _ _ ihf iha => .call ihf iha

/-- Binding a function to an environment leaves its code alone. -/
theorem ClosureOf.Coded.bind {G : Value → Prop} {c : Closure} (h : c.Coded G) (ref : Ref)
    (env : Option EnvId) : ClosureOf.Coded G { c with ref, env } := by
  obtain ⟨himplements, hall⟩ := h
  exact .intro ⟨himplements.code, himplements.parameters⟩ hall

theorem Term.All.mono {G H : Value → Prop} {T U : Closure → Prop} (hg : ∀ v, G v → H v)
    (ht : ∀ c, T c → U c) {t : Term} (h : t.All G T) : t.All H U := by
  induction h with
  | constant hv => exact .constant (hg _ hv)
  | lookup => exact .lookup
  | conditional _ _ _ iha ihb ihc => exact .conditional iha ihb ihc
  | assignment _ ih => exact .assignment ih
  | function he hd => exact .function he (ht _ hd)
  | call _ _ ihf iha => exact .call ihf iha

end StackLisp
