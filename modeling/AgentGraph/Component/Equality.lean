import AgentGraph.Component.Fields
/-!
# Equality of components

Two components are equal when all they hold is equal, at every depth; which objects they are does
not count, and mappings are compared without regard to the order of their keys.
-/
namespace AgentGraph

/-- Equality of optional values under a test. -/
def sameOption {α : Type} (test : α → α → Bool) : Option α → Option α → Bool
  | none, none => true
  | some a, some b => test a b
  | _, _ => false

def ModelConfig.same (a b : ModelConfig) : Bool :=
  a.provider == b.provider && a.modelId == b.modelId && a.url == b.url && a.apiKey == b.apiKey &&
    a.apiType == b.apiType && sameOption Tree.sameDict a.parameters b.parameters

def Endpoint.same (a b : Endpoint) : Bool :=
  a.url == b.url && a.httpMethod == b.httpMethod && Tree.sameDict a.apiHeaders b.apiHeaders &&
    Tree.sameDict a.sensitiveHeaders b.sensitiveHeaders && Tree.sameDict a.data b.data

/-- Equality of the places where tools run. -/
def ToolSite.same : ToolSite → ToolSite → Bool
  | server, server => true
  | client, client => true
  | remote a, remote b => a.same b
  | _, _ => false

def Tool.same (a b : Tool) : Bool :=
  a.site.same b.site && a.slots.same b.slots && a.requiresConfirmation == b.requiresConfirmation

/-- Equality of mappings of texts, without regard to the order of their keys. -/
def sameTexts (a b : Dict String) : Bool :=
  a.length == b.length && a.all fun pair => b.get? pair.1 == some pair.2

mutual
def Component.same : Component → Component → Bool
  | .mk _ id name description metadata kind, other =>
    id == other.id && name == other.name && description == other.description &&
      Tree.sameDict metadata other.metadata && kind.same other.kind
def Kind.same : Kind → Kind → Bool
  | .modelConfig a, .modelConfig b => a.same b
  | .tool a, .tool b => a.same b
  | .agent l p ts h s, .agent l' p' ts' h' s' =>
    l.same l' && p == p' && sameComponents ts ts' && h == h' && s.same s'
  | .swarm f rs, .swarm f' rs' => f.same f' && samePairs rs rs'
  | .managerWorkers m ws, .managerWorkers m' ws' => m.same m' && sameComponents ws ws'
  | .flow n ns cs ds s, .flow n' ns' cs' ds' s' =>
    n.same n' && sameComponents ns ns' && sameComponents cs cs' && sameComponents ds ds' &&
      s.same s'
  | .node r s, .node r' s' => r.same r' && s.same s'
  | .controlFlowEdge f b t, .controlFlowEdge f' b' t' => f.same f' && b == b' && t.same t'
  | .dataFlowEdge s o d i, .dataFlowEdge s' o' d' i' =>
    s.same s' && o == o' && d.same d' && i == i'
  | .extension t fs, .extension t' fs' => t == t' && fs.length == fs'.length && sameFields fs fs'
  | _, _ => false
def NodeRole.same : NodeRole → NodeRole → Bool
  | .start, .start => true
  | .finish b, .finish b' => b == b'
  | .llm l p, .llm l' p' => l.same l' && p == p'
  | .tool t, .tool t' => t.same t'
  | .agent a, .agent a' => a.same a'
  | .flow f, .flow f' => f.same f'
  | .branching m, .branching m' => sameTexts m m'
  | _, _ => false
def Value.same : Value → Value → Bool
  | .data a, .data b => a.same b
  | .component a, .component b => a.same b
  | .property a, .property b => a.same b
  | .list xs, .list ys => sameValues xs ys
  | .map xs, .map ys => xs.length == ys.length && sameFields xs ys
  | _, _ => false
def sameComponents : List Component → List Component → Bool
  | [], [] => true
  | a :: as, b :: bs => a.same b && sameComponents as bs
  | _, _ => false
/-- Equality of lists of pairs of components. -/
def samePairs : List (Component × Component) → List (Component × Component) → Bool
  | [], [] => true
  | (a, b) :: rest, (a', b') :: rest' => a.same a' && b.same b' && samePairs rest rest'
  | _, _ => false
def sameValues : List Value → List Value → Bool
  | [], [] => true
  | a :: as, b :: bs => a.same b && sameValues as bs
  | _, _ => false
/-- Whether each field is in the other mapping. -/
def sameFields : List (String × Value) → Dict Value → Bool
  | [], _ => true
  | (key, v) :: rest, other =>
    (match other.get? key with
      | some w => v.same w
      | none => false) && sameFields rest other
end

end AgentGraph
