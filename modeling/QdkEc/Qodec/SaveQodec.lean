import QdkEc.Qodec.ArtifactPaths

/-!
# Saving a qodec

This module models how a qodec is saved to a directory or as a bundle.  The model is
validated, its documents get paths, reused files outside are read again, and all paths are
checked before anything is created.  The documents of a bundle are written into its
manifest, except sources of unknown formats, which are written beside it.
-/

namespace QdkEc

namespace Save

variable (files : FileSystem) (qodec : Qodec)

end Save

end QdkEc
