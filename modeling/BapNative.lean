import BapNative.Jit.Bytes
import BapNative.Jit.ChainInfo
import BapNative.Jit.Filtered
import BapNative.Jit.Optimized
import BapNative.Lib.Dfs
