import WireSchema.Codec.Encode
import WireSchema.Yaml.Page

/-!
# Objects as YAML

Writing the objects of a model as YAML documents.
-/

namespace WireSchema.Codec

def yaml (v : Option Target) : Except Failure Text :=
  match Yaml.Builder.writeAll {} (events v) with
  | (some f, _) => .error f
  | (none, b) => b.text 0

end WireSchema.Codec
